import UosioCdt.Lib.LittleEndian
import Mathlib.Algebra.Group.Nat.Defs

/-!
# Heaps of `malloc.cpp`

`buffer_ptr` and the class `memory`, on wasm32: a `size_t` and a pointer have 32 bits. A block is a
size word, whose highest bit says whether the block is allocated, and its payload.
-/

namespace UosioCdt.Malloc

open LittleEndian

/-! ## Memory -/

/-- The byte at every address. -/
abbrev Mem := ℕ → UInt8

/-- A 32-bit sum. -/
def wrap (n : ℕ) : ℕ := n % 2 ^ 32

/-- A 32-bit difference. -/
def diff (m n : ℕ) : ℕ := (m + 2 ^ 32 - n) % 2 ^ 32

/-- `*reinterpret_cast<const size_t*>(a)` -/
def load (m : Mem) (a : ℕ) : ℕ := ofBytes [m a, m (a + 1), m (a + 2), m (a + 3)]

/-- `*reinterpret_cast<size_t*>(a) = v` -/
def store (m : Mem) (a v : ℕ) : Mem := fun x =>
  if a ≤ x ∧ x < a + 4 then (toBytes 4 v).getD (x - a) 0 else m x

/-- `memcpy` -/
def memcpy (m : Mem) (dst src n : ℕ) : Mem := fun x =>
  if dst ≤ x ∧ x < dst + n then m (src + (x - dst)) else m x

/-- `memset` -/
def memset (m : Mem) (dst : ℕ) (value : UInt8) (n : ℕ) : Mem := fun x =>
  if dst ≤ x ∧ x < dst + n then value else m x

/-- What goes wrong in a call: a `check` fires, or a loop has not ended after `loopBound` rounds. -/
inductive Fault where
  | check
  | loop
deriving DecidableEq, Repr

/-- The rounds that a loop is followed for. A counter of 32 bits has repeated by then. -/
def loopBound : ℕ := 2 ^ 32

/-! ## `buffer_ptr` -/

def sizeMarker : ℕ := 4

/-- `_alloc_memory_mask` -/
def allocMask : ℕ := 2 ^ 31

/-- `~_alloc_memory_mask` -/
def sizeMask : ℕ := 2 ^ 31 - 1

/-- `ptr - _size_marker`: where the size word of a block is. -/
def marker (ptr : ℕ) : ℕ := diff ptr sizeMarker

/-- `buffer_ptr`: the payload, its size, and the end of the heap. -/
structure BufferPtr where
  ptr : ℕ
  size : ℕ
  heapEnd : ℕ

/-- The constructor that reads the size. -/
def bufferAt (m : Mem) (ptr heapEnd : ℕ) : BufferPtr :=
  ⟨ptr, load m (marker ptr) &&& sizeMask, heapEnd⟩

/-- `size(val)`: the size word, with the same state as before. -/
def writeSize (m : Mem) (ptr val : ℕ) : Mem :=
  let memoryState := load m (marker ptr) &&& allocMask
  store m (marker ptr) (val ||| memoryState)

def markAlloc (m : Mem) (ptr : ℕ) : Mem := store m (marker ptr) (load m (marker ptr) ||| allocMask)

def markFree (m : Mem) (ptr : ℕ) : Mem := store m (marker ptr) (load m (marker ptr) &&& sizeMask)

def isAlloc (m : Mem) (ptr : ℕ) : Bool := load m (marker ptr) &&& allocMask ≠ 0

/-- `end()` -/
def BufferPtr.stop (b : BufferPtr) : ℕ := wrap (b.ptr + b.size)

def BufferPtr.nextPtr (b : BufferPtr) : Option ℕ :=
  let next := wrap (b.stop + sizeMarker)
  if next ≥ b.heapEnd then none else some next

/-- The loop of `merge_contiguous`, with `possible_size`. -/
def mergeLoop (m : Mem) (b : BufferPtr) (neededSize : ℕ) : ℕ → ℕ → Except Fault ℕ
  | 0, _ => .error .loop
  | fuel + 1, possibleSize =>
    if possibleSize < neededSize ∧ wrap (b.ptr + possibleSize) < b.heapEnd then
      let nextMemFlagSize := load m (wrap (b.ptr + possibleSize))
      if nextMemFlagSize &&& allocMask ≠ 0 then .ok possibleSize
      else mergeLoop m b neededSize fuel
        (wrap (possibleSize + wrap ((nextMemFlagSize &&& sizeMask) + sizeMarker)))
    else .ok possibleSize

/-- The part of `merge_contiguous` behind the loop: whether the block has the size now, the block and
the memory. -/
def combine (m : Mem) (b : BufferPtr) (possibleSize neededSize : ℕ) : Bool × BufferPtr × Mem :=
  let newSize := if possibleSize < neededSize then possibleSize else neededSize
  let m := writeSize m b.ptr newSize
  let m :=
    if possibleSize > neededSize then
      let freedSize := diff (diff possibleSize neededSize) sizeMarker
      let remainder := wrap (wrap (b.ptr + neededSize) + sizeMarker)
      markFree (writeSize m remainder freedSize) remainder
    else m
  (newSize = neededSize, { b with size := newSize }, m)

/-- `merge_contiguous` -/
def mergeContiguous (m : Mem) (b : BufferPtr) (neededSize : ℕ) (allOrNothing : Bool) :
    Except Fault (Bool × BufferPtr × Mem) := do
  if allOrNothing ∧ diff b.heapEnd b.ptr < neededSize then return (false, b, m)
  let possibleSize ← mergeLoop m b neededSize loopBound b.size
  if allOrNothing ∧ possibleSize < neededSize then return (false, b, m)
  return combine m b possibleSize neededSize

/-! ## `memory` -/

/-- The class `memory`: a heap. It is not initialised while `_heap` is null. -/
structure Heap where
  heapSize : ℕ
  heap : ℕ
  offset : ℕ
deriving DecidableEq, Repr

namespace Heap

/-- The constructor. -/
def empty : Heap := ⟨0, 0, 0⟩

/-- `init` -/
def init (h : Heap) (memHeap size : ℕ) : Heap := { h with heapSize := size, heap := memHeap }

def isInit (h : Heap) : Bool := h.heap ≠ 0

/-- `_heap + _heap_size` -/
def heapEnd (h : Heap) : ℕ := wrap (h.heap + h.heapSize)

def isInHeap (h : Heap) (ptr : ℕ) : Bool :=
  let firstPtrOfBuffer := wrap (h.heap + sizeMarker)
  firstPtrOfBuffer ≤ ptr ∧ ptr < h.heapEnd

/-- `memory::malloc` -/
def malloc (h : Heap) (m : Mem) (size : ℕ) : Option (ℕ × Heap × Mem) :=
  let usedUpSize := wrap (wrap (h.offset + size) + sizeMarker)
  if usedUpSize > h.heapSize then none
  else
    let ptr := wrap (h.heap + wrap (h.offset + sizeMarker))
    let m := markAlloc (writeSize m ptr size) ptr
    some (ptr, { h with offset := wrap (h.offset + wrap (size + sizeMarker)) }, m)

/-- The loop of `malloc_from_freed` from the block `current`. -/
def freedLoop (heapEnd size : ℕ) : ℕ → Mem → Option ℕ → Except Fault (Option ℕ × Mem)
  | _, m, none => .ok (none, m)
  | 0, _, some _ => .error .loop
  | fuel + 1, m, some current => do
    let currentBuffer := bufferAt m current heapEnd
    if isAlloc m current then freedLoop heapEnd size fuel m currentBuffer.nextPtr
    else
      let (merged, currentBuffer, m) ← mergeContiguous m currentBuffer size false
      if merged then return (some current, markAlloc m current)
      else freedLoop heapEnd size fuel m currentBuffer.nextPtr

/-- `malloc_from_freed` -/
def mallocFromFreed (h : Heap) (m : Mem) (size : ℕ) : Except Fault (Option ℕ × Mem) :=
  if h.offset ≠ h.heapSize then .error .check
  else freedLoop h.heapEnd size loopBound m (some (wrap (h.heap + sizeMarker)))

/-- What `realloc_in_place` gives back: the pointer, `*orig_ptr_size`, the heap and the memory. -/
structure InPlace where
  ptr : Option ℕ
  origPtrSize : ℕ
  heap : Heap
  mem : Mem

/-- `realloc_in_place` -/
def reallocInPlace (h : Heap) (m : Mem) (ptr size : ℕ) : Except Fault InPlace := do
  let endOfBuffer := h.heapEnd
  let origBuffer := bufferAt m ptr endOfBuffer
  let origPtrSize := origBuffer.size
  if origBuffer.stop > endOfBuffer then return ⟨none, 0, h, m⟩
  if ptr > diff endOfBuffer size then return ⟨none, origPtrSize, h, m⟩
  if origPtrSize > size then
    let newPtr := wrap (wrap (ptr + size) + sizeMarker)
    let m := markFree (writeSize m newPtr (diff origPtrSize size)) newPtr
    return ⟨some ptr, origPtrSize, h, m⟩
  else if origBuffer.stop = wrap (h.heap + h.offset) then
    let m := writeSize m ptr size
    let h := { h with offset := wrap (h.offset + diff size origPtrSize) }
    return ⟨some ptr, origPtrSize, h, m⟩
  if size = origPtrSize then return ⟨some ptr, origPtrSize, h, m⟩
  let (merged, _, m) ← mergeContiguous m origBuffer size true
  if merged then return ⟨some ptr, origPtrSize, h, markAlloc m ptr⟩
  else return ⟨none, origPtrSize, h, m⟩

/-- `free` -/
def free (m : Mem) (ptr : ℕ) : Mem := markFree m ptr

/-- `cleanup_remaining`: the rest of the heap becomes a freed block. -/
def cleanupRemaining (h : Heap) (m : Mem) : Heap × Mem :=
  if h.offset = h.heapSize then (h, m)
  else
    let size := diff (diff h.heapSize h.offset) sizeMarker
    let ptr := wrap (h.heap + wrap (h.offset + sizeMarker))
    ({ h with offset := h.heapSize }, markFree (writeSize m ptr size) ptr)

/-- `expand_memory` -/
def expandMemory (h : Heap) (expMem size : ℕ) : Option Heap :=
  if h.heapEnd ≠ expMem then none else some { h with heapSize := wrap (h.heapSize + size) }

end Heap

end UosioCdt.Malloc
