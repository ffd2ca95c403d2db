import UosioCdt.Lib.Aborting
import UosioCdt.Lib.Runs
import UosioCdt.Malloc.Run
import UosioCdt.Malloc.SimpleMalloc

/-!
# `memory_manager` on wasm32

The memory manager over the `sbrk` of `malloc.cpp` and a memory that grows by pages when the host
grants them. An access outside the memory traps.
-/

namespace UosioCdt.Malloc

/-! ## The machine -/

/-- Why a call does not return. -/
inductive Halt where
  | trap
  | fault (f : Fault)
deriving DecidableEq, Repr

/-- The module and its host: where `_initial_heap` is, the pages at the start, and which of the
requests for pages are granted. -/
structure Host where
  initialHeap : ℕ
  pages : ℕ
  grants : ℕ → Bool

/-- `sizeof(memory_manager)`: the initial heap, the descriptors and three more words. -/
def sizeofMemoryManager : ℕ := initialHeapSize + heapsSize * 12 + 12

/-- The memory manager lies in the memory. -/
structure Host.Ok (host : Host) : Prop where
  initialHeap_pos : 0 < host.initialHeap
  inside : host.initialHeap + sizeofMemoryManager ≤ host.pages * 65536
  pages_le : host.pages ≤ maxPages

/-- The memory manager, the static `initialized` of `sbrk`, the pages of the memory, and how often
pages were asked for and `sbrk` has failed. -/
structure Machine where
  mgr : Manager
  initialized : Bool
  pages : ℕ
  grows : ℕ
  failures : ℕ

namespace Machine

/-- The memory manager changes. -/
def withMgr (s : Machine) (mgr : Manager) : Machine := { s with mgr }

end Machine

/-- The heap `i` and the memory change. -/
def Manager.setHeapMem (s : Manager) (i : ℕ) (h : Heap) (mem : Mem) : Manager :=
  { s.setHeap i h with mem }

/-- A program that may stop. -/
abbrev Wasm := EStateM Halt Machine

/-- `reinterpret_cast<int64_t>` of a pointer, which is unsigned and has 32 bits. -/
def toInt64 (p : ℕ) : ℤ := p

/-- The surroundings of the memory manager: memory ends before 2^32. -/
def Host.env (host : Host) : Env where
  initialHeap := host.initialHeap
  memoryEnd := host.pages * 65536
  limit := 65535 * 65536
  toInt64 := toInt64

/-- The state before the first call, with zeros everywhere. -/
def Host.start (host : Host) : Machine where
  mgr := { host.env.initial with sbrkBytes := 0 }
  initialized := false
  pages := host.pages
  grows := 0
  failures := 0

/-! ## `sbrk` -/

namespace Machine

/-- The first call sets `sbrk_bytes`. -/
def initSbrk (s : Machine) : Machine :=
  if s.initialized then s
  else { s with mgr := { s.mgr with sbrkBytes := wrap (s.pages * 65536) }, initialized := true }

/-- `reinterpret_cast<void*>(-1)` -/
def fail (s : Machine) : ℕ × Machine := (2 ^ 32 - 1, { s with failures := s.failures + 1 })

/-- `sbrk_bytes += num_bytes` -/
def advance (s : Machine) (numBytes : ℕ) : Machine :=
  { s with mgr := { s.mgr with sbrkBytes := wrap (s.mgr.sbrkBytes + numBytes) } }

/-- `sbrk` -/
def sbrk (host : Host) (s : Machine) (numBytes : ℕ) : ℕ × Machine :=
  let s := s.initSbrk
  if numBytes > 2 ^ 31 - 1 then s.fail
  else
    let prevNumBytes := s.mgr.sbrkBytes
    let currentPages := s.pages
    let numBytes := wrap (numBytes + 7) / 8 * 8
    let numDesiredPages := diff (wrap (s.mgr.sbrkBytes + numBytes + 65536)) 1 / 65536
    if numDesiredPages > currentPages then
      let grown := growMemory s.pages (UInt32.ofNat (numDesiredPages - currentPages))
        (host.grants s.grows)
      let s := { s with pages := grown.2, grows := s.grows + 1 }
      if grown.1 = -1 then s.fail else (prevNumBytes, s.advance numBytes)
    else (prevNumBytes, s.advance numBytes)

end Machine

/-! ## Memory accesses -/

namespace Wasm

/-- A word at `a` is read or written. -/
def access (a : ℕ) : Wasm Unit := do
  let s ← get
  if a + 4 ≤ s.pages * 65536 then return else throw .trap

/-- `n` bytes from `a` on are read or written. -/
def accessBytes (a n : ℕ) : Wasm Unit := do
  let s ← get
  if n = 0 ∨ a + n ≤ s.pages * 65536 then return else throw .trap

def update (f : Manager → Manager) : Wasm Unit := modify fun s => s.withMgr (f s.mgr)

/-! ## `malloc` -/

def sbrk (host : Host) (numBytes : ℕ) : Wasm ℕ := modifyGet fun s => s.sbrk host numBytes

/-- `current_memory->cleanup_remaining(); ++_active_heap` -/
def retireActive : Wasm Unit := do
  let s ← get
  let h := s.mgr.availableHeaps s.mgr.activeHeap
  if h.offset ≠ h.heapSize then
    access (marker (wrap (h.heap + wrap (h.offset + sizeMarker))))
  update Manager.retireActive

/-- The part of `next_active_heap` behind the second call of `sbrk`. -/
def useMemory (newMemoryStart heapAdj : ℕ) : Wasm (Option ℕ) := do
  if toInt64 newMemoryStart = -1 then
    retireActive
    update fun mgr => { mgr with heapsActualSize := mgr.activeHeap }
    return none
  else
    let s ← get
    match (s.mgr.availableHeaps s.mgr.activeHeap).expandMemory newMemoryStart heapAdj with
    | some h =>
      update fun mgr => mgr.setHeap mgr.activeHeap h
      return some s.mgr.activeHeap
    | none =>
      retireActive
      update fun mgr => mgr.setHeap mgr.activeHeap
        ((mgr.availableHeaps mgr.activeHeap).init newMemoryStart heapAdj)
      return some (s.mgr.activeHeap + 1)

/-- `next_active_heap` -/
def nextActiveHeap (host : Host) : Wasm (Option ℕ) := do
  let currentMemorySize ← sbrk host 0
  if (currentMemorySize : ℤ) < 0 then return none
  else
    let heapAdj := Manager.heapAdj currentMemorySize
    let newMemoryStart ← sbrk host heapAdj
    useMemory newMemoryStart heapAdj

/-- `current->malloc(size)` -/
def heapMalloc (current size : ℕ) : Wasm (Option ℕ) := do
  let s ← get
  match (s.mgr.availableHeaps current).malloc s.mgr.mem size with
  | none => return none
  | some (buffer, h, mem) =>
    access (marker buffer)
    update fun mgr => mgr.setHeapMem current h mem
    return some buffer

/-- The loop of `malloc` over the active heaps. -/
def activeLoop (host : Host) (size : ℕ) : ℕ → Option ℕ → Wasm (Option ℕ)
  | _, none => return none
  | 0, some _ => throw (.fault .loop)
  | fuel + 1, some current => do
    match ← heapMalloc current size with
    | some buffer => return some buffer
    | none =>
      let current ← nextActiveHeap host
      activeLoop host size fuel current

/-- The loop of `malloc` over the heaps with freed blocks. -/
def freedHeaps (size : ℕ) : Wasm (Option ℕ) := do
  let s ← get
  match Manager.freedHeapsLoop size s.mgr.activeFreeHeap loopBound s.mgr with
  | .ok (buffer, mgr) =>
    update fun _ => mgr
    return buffer
  | .error f => throw (.fault f)

/-- The number of heaps is set, and the initial heap initialised, by the first `malloc`. -/
def prepare (host : Host) : Wasm (Option ℕ) := modifyGet fun s =>
  ((s.mgr.prepare host.env).1, s.withMgr (s.mgr.prepare host.env).2)

/-- `memory_manager::malloc` -/
def malloc (host : Host) (size : ℕ) : Wasm (Option ℕ) := do
  if size = 0 then return none
  else
    let current ← prepare host
    let size := Manager.adjustToMemBlock size
    match ← activeLoop host size loopBound current with
    | some buffer => return some buffer
    | none => freedHeaps size

/-! ## `calloc`, `free` and `realloc` -/

/-- `calloc` -/
def calloc (host : Host) (count size : ℕ) : Wasm (Option ℕ) := do
  let ptr ← malloc host (wrap (count * size))
  accessBytes (ptr.getD 0) (wrap (count * size))
  update fun mgr => { mgr with mem := memset mgr.mem (ptr.getD 0) 0 (wrap (count * size)) }
  return ptr

/-- `memory_manager::free` -/
def free (ptr : ℕ) : Wasm Unit := do
  let s ← get
  if ptr ≠ 0 ∧ (s.mgr.findHeap ptr).isSome then access (marker ptr)
  update fun mgr => mgr.free ptr

/-- The part of `realloc` that looks for the heap of the pointer and resizes in place: the pointer,
and the size of the block. A walk that leaves the memory would end the run here. -/
def reallocInPlace (ptr size : ℕ) : Wasm (Option ℕ × ℕ) := do
  let s ← get
  match if ptr ≠ 0 then s.mgr.findHeap ptr else none with
  | none => return (none, 0)
  | some i =>
    access (marker ptr)
    match (s.mgr.availableHeaps i).reallocInPlace s.mgr.mem ptr size with
    | .ok r =>
      update fun mgr => mgr.setHeapMem i r.heap r.mem
      return (r.ptr, r.origPtrSize)
    | .error f => throw (.fault f)

/-- The part of `realloc` behind the new block: a copy. -/
def copyBlock (newAlloc ptr copySize : ℕ) : Wasm Unit := do
  if copySize > 0 then
    accessBytes newAlloc copySize
    accessBytes ptr copySize
    update fun mgr => { mgr with mem := memcpy mgr.mem newAlloc ptr copySize }
    free ptr

/-- `memory_manager::realloc` -/
def realloc (host : Host) (ptr size : ℕ) : Wasm (Option ℕ) := do
  if size = 0 then
    free ptr
    return none
  else
    let size := Manager.adjustToMemBlock size
    let (reallocPtr, origPtrSize) ← reallocInPlace ptr size
    if reallocPtr.isSome then return reallocPtr
    else
      match ← malloc host size with
      | none => return none
      | some newAlloc =>
        copyBlock newAlloc ptr (if size < origPtrSize then size else origPtrSize)
        return some newAlloc

end Wasm

/-! ## Runs -/

/-- What the program does. -/
inductive WasmOp where
  | malloc (n : UInt32)
  | calloc (count size : UInt32)
  | free (p : ℕ)
  | realloc (p : ℕ) (n : UInt32)
  | write (x : ℕ) (v : UInt8)

/-- The machine, and the blocks that the program holds. -/
structure WasmRun where
  machine : Machine
  live : List Alloc

/-- What a program that returns gives. -/
def Wasm.returns {α : Type} (x : Wasm α) (s : Machine) : Option (α × Machine) :=
  match x s with
  | .ok a t => some (a, t)
  | .error _ _ => none

/-! ## What the calls are for -/

namespace Machine

/-- The size that the block at `p` records. -/
def sizeAt (s : Machine) (p : ℕ) : ℕ := load s.mgr.mem (marker p) &&& sizeMask

/-- The block at `p` has at least `n` bytes, which lie inside a heap and inside the memory. -/
structure Usable (s : Machine) (p n : ℕ) : Prop where
  size_le : n ≤ s.sizeAt p
  inHeap : ∃ i, (s.mgr.availableHeaps i).isInit = true ∧
    (s.mgr.availableHeaps i).heap + sizeMarker ≤ p ∧
    p + s.sizeAt p ≤ (s.mgr.availableHeaps i).heap + (s.mgr.availableHeaps i).heapSize
  inMemory : p + s.sizeAt p ≤ s.pages * 65536

/-- `malloc(n)` returns null or a block of at least `n` bytes. -/
def Honours (host : Host) (s : Machine) (n : ℕ) : Prop :=
  ∃ r t, Wasm.malloc host n s = .ok r t ∧ ∀ p, r = some p → t.Usable p n

/-- `calloc(count, size)` returns null and writes nothing, or a block of zeros that holds all the
elements. -/
def Clears (host : Host) (s : Machine) (count size : ℕ) : Prop :=
  ∃ r t, Wasm.calloc host count size s = .ok r t ∧ (r = none → t.mgr.mem = s.mgr.mem) ∧
    ∀ p, r = some p → t.Usable p (count * size) ∧ ∀ x < count * size, t.mgr.mem (p + x) = 0

/-- The pages that a block of `size` bytes needs: none when it fits behind the offset, otherwise as
many as a new heap or the rest of the second one takes. -/
def wanted (s : Machine) (size : ℕ) : ℕ :=
  let h := s.mgr.availableHeaps s.mgr.activeHeap
  if s.mgr.activeHeap = 0 then
    if h.offset + size + sizeMarker ≤ initialHeapSize then 0 else (size + sizeMarker + 65535) / 65536
  else (h.offset + size + sizeMarker - h.heapSize + 65535) / 65536

/-- The pages end below 2^32, and the host grants every one. -/
def Room (host : Host) (s : Machine) (size : ℕ) : Prop :=
  s.wanted size = 0 ∨ s.pages + s.wanted size < 65536 ∧
    ∀ j < s.wanted size, host.grants (s.grows + j) = true

/-- The size and its header do not wrap, leave the highest bit of the size word alone, and there is
room for them. -/
def RequestOk (host : Host) (s : Machine) (n : ℕ) : Prop :=
  n = 0 ∨ n ≤ 2 ^ 31 - 4 ∧ s.Room host (Manager.adjustToMemBlock n)

/-- The product does not wrap and can be met, or it wraps to zero. -/
def ProductOk (host : Host) (s : Machine) (count size : ℕ) : Prop :=
  wrap (count * size) = 0 ∨ count * size < 2 ^ 32 ∧ s.RequestOk host (count * size)

end Machine

/-- `sbrk` fails while the program runs. -/
def Wasm.Fails {α : Type} (x : Wasm α) (s : Machine) : Prop :=
  s.failures < (Aborting.after (x s)).failures

namespace WasmRun

def start (host : Host) : WasmRun := ⟨host.start, []⟩

/-- The block that a call returned is live. -/
def gave (s : WasmRun) (n : ℕ) : Option ℕ → Machine → WasmRun
  | some p, machine => ⟨machine, ⟨p, n⟩ :: s.live⟩
  | none, machine => ⟨machine, s.live⟩

/-- The block at `p` is not live any more. -/
def drop (s : WasmRun) (p : ℕ) : WasmRun := { s with live := s.live.filter fun a => a.ptr ≠ p }

/-- One step, or `none` when it does not return. -/
def step (host : Host) (s : WasmRun) : WasmOp → Option WasmRun
  | .malloc n => do
    let (r, machine) ← (Wasm.malloc host n.toNat).returns s.machine
    return s.gave n.toNat r machine
  | .calloc count size => do
    let (r, machine) ← (Wasm.calloc host count.toNat size.toNat).returns s.machine
    return s.gave (wrap (count.toNat * size.toNat)) r machine
  | .free p => do
    let (_, machine) ← (Wasm.free p).returns s.machine
    return { s.drop p with machine }
  | .realloc p n => do
    let (r, machine) ← (Wasm.realloc host p n.toNat).returns s.machine
    -- without a new block the old one stays, unless it was given back
    return if r.isSome ∨ n = 0 then (s.drop p).gave n.toNat r machine else { s with machine }
  | .write x v => some { s with machine := s.machine.withMgr { s.machine.mgr with
      mem := fun y => if y = x then v else s.machine.mgr.mem y } }

/-- The state behind a run that returns. -/
def run (host : Host) (s : WasmRun) (ops : List WasmOp) : Option WasmRun := ops.foldlM (step host) s

/-- `malloc(n)` leaves the heap intact: it returns null or a freed block of a heap, no descriptor
begins at the failure value, the active heap has a slot, and the blocks of the program keep their
bytes and their heaps. -/
def Intact (host : Host) (s : WasmRun) (n : ℕ) : Prop :=
  ∃ r t, Wasm.malloc host n s.machine = .ok r t ∧
    (∀ p, r = some p → ∃ i, (s.machine.mgr.availableHeaps i).isInit = true ∧
      (s.machine.mgr.availableHeaps i).isInHeap p = true ∧ isAlloc s.machine.mgr.mem p = false) ∧
    (∀ i, (t.mgr.availableHeaps i).heap ≠ 2 ^ 32 - 1) ∧
    t.mgr.activeHeap < heapsSize ∧
    ∀ a ∈ s.live, t.mgr.findHeap a.ptr = s.machine.mgr.findHeap a.ptr ∧
      ∀ x, a.ptr ≤ x → x < a.ptr + a.len → t.mgr.mem x = s.machine.mgr.mem x

/-- The program gives back and resizes its own blocks, and writes into them. -/
def Own (s : WasmRun) : WasmOp → Prop
  | .malloc _ => True
  | .calloc _ _ => True
  | .free p => p = 0 ∨ ∃ a ∈ s.live, a.ptr = p
  | .realloc p _ => p = 0 ∨ ∃ a ∈ s.live, a.ptr = p
  | .write x _ => ∃ a ∈ s.live, a.ptr ≤ x ∧ x < a.ptr + a.len

/-- No block is resized to a size above the end of its heap. -/
def BelowEnd (s : WasmRun) : WasmOp → Prop
  | .realloc p n => ∀ i, s.machine.mgr.findHeap p = some i →
      Manager.adjustToMemBlock n.toNat ≤ (s.machine.mgr.availableHeaps i).heapEnd
  | _ => True

/-- The program keeps to its own blocks, and `realloc` to the heaps. -/
def Proper (s : WasmRun) (op : WasmOp) : Prop := s.Own op ∧ s.BelowEnd op

/-- `P` holds of the state and the size of every call of `memory_manager::malloc`. -/
def OnMalloc (P : Machine → ℕ → Prop) (s : WasmRun) : WasmOp → Prop
  | .malloc n => P s.machine n.toNat
  | .calloc count size => P s.machine (wrap (count.toNat * size.toNat))
  | .realloc p n => n ≠ 0 → ∀ origPtrSize t,
    Wasm.reallocInPlace p (Manager.adjustToMemBlock n.toNat) s.machine = .ok (none, origPtrSize) t →
      P t (Manager.adjustToMemBlock n.toNat)
  | .free _ => True
  | .write _ _ => True

/-- No block is resized to a size above the end of its heap, and the calls of `malloc` other than those
of `calloc` ask for sizes that can be met. -/
def Careful (host : Host) (s : WasmRun) (op : WasmOp) : Prop :=
  s.BelowEnd op ∧
    ((∀ count size, op ≠ .calloc count size) → s.OnMalloc (Machine.RequestOk host) op)

/-- `P` holds of the state and the arguments of every call of `calloc`. -/
def OnCalloc (P : Machine → ℕ → ℕ → Prop) (s : WasmRun) : WasmOp → Prop
  | .calloc count size => P s.machine count.toNat size.toNat
  | _ => True

end WasmRun

end UosioCdt.Malloc
