import UosioCdt.Malloc.Memory

/-!
# `memory_manager`

`malloc`, `realloc` and `free` over the initial heap and the heaps in the memory that `sbrk` hands
out. `sbrk` is abstract: one area grows from `memoryEnd` until a request would pass `limit`.
-/

namespace UosioCdt.Malloc

/-- The surroundings of the memory manager. -/
structure Env where
  /-- The address of `_initial_heap`. -/
  initialHeap : ℕ
  /-- The end of the memory before the first call of `sbrk`. -/
  memoryEnd : ℕ
  /-- Requests that would pass this address fail. -/
  limit : ℕ
  /-- `reinterpret_cast<int64_t>` of a pointer. -/
  toInt64 : ℕ → ℤ

/-- The members of `memory_manager`, `sbrk_bytes` and the memory. -/
structure Manager where
  mem : Mem
  sbrkBytes : ℕ
  availableHeaps : ℕ → Heap
  heapsActualSize : ℕ
  activeHeap : ℕ
  activeFreeHeap : ℕ

def initialHeapSize : ℕ := 8192

def heapsSize : ℕ := 16

def wasmPageSize : ℕ := 64 * 1024

/-- The state before the first call, with zeros everywhere. -/
def Env.initial (env : Env) : Manager where
  mem := fun _ => 0
  sbrkBytes := env.memoryEnd
  availableHeaps := fun _ => .empty
  heapsActualSize := 0
  activeHeap := 0
  activeFreeHeap := 0

namespace Manager

/-- An entry of `_available_heaps` changes. -/
def setHeap (s : Manager) (i : ℕ) (h : Heap) : Manager :=
  { s with availableHeaps := fun j => if j = i then h else s.availableHeaps j }

/-- `sbrk`: the request is rounded up to 8 bytes, a failure is `(void*)-1`. -/
def sbrk (env : Env) (s : Manager) (numBytes : ℕ) : ℕ × Manager :=
  let numBytes := wrap (numBytes + 7) / 8 * 8
  if s.sbrkBytes + numBytes ≤ env.limit then
    (s.sbrkBytes, { s with sbrkBytes := s.sbrkBytes + numBytes })
  else (2 ^ 32 - 1, s)

/-- `current_memory->cleanup_remaining(); ++_active_heap` -/
def retireActive (s : Manager) : Manager :=
  let (h, m) := (s.availableHeaps s.activeHeap).cleanupRemaining s.mem
  { s.setHeap s.activeHeap h with mem := m, activeHeap := s.activeHeap + 1 }

/-- The bytes up to the end of the page, if there is 1 KiB, otherwise up to the end of the next. -/
def heapAdj (currentMemorySize : ℕ) : ℕ :=
  if currentMemorySize % wasmPageSize ≤ wasmPageSize - 1024 then
    diff (diff (wrap (currentMemorySize + wasmPageSize)) (currentMemorySize % wasmPageSize))
      currentMemorySize
  else
    diff (diff (wrap (currentMemorySize + wasmPageSize * 2))
      (currentMemorySize % (wasmPageSize * 2))) currentMemorySize

/-- `next_active_heap`: the number of the heap. -/
def nextActiveHeap (env : Env) (s : Manager) : Option ℕ × Manager :=
  let (currentMemorySize, s) := s.sbrk env 0
  if (currentMemorySize : ℤ) < 0 then (none, s)
  else
    let adj := heapAdj currentMemorySize
    let (newMemoryStart, s) := s.sbrk env adj
    if env.toInt64 newMemoryStart = -1 then
      let s := s.retireActive
      (none, { s with heapsActualSize := s.activeHeap })
    else
      match (s.availableHeaps s.activeHeap).expandMemory newMemoryStart adj with
      | some h => (some s.activeHeap, s.setHeap s.activeHeap h)
      | none =>
        let s := s.retireActive
        let next := (s.availableHeaps s.activeHeap).init newMemoryStart adj
        (some s.activeHeap, s.setHeap s.activeHeap next)

/-- `adjust_to_mem_block` -/
def adjustToMemBlock (size : ℕ) : ℕ :=
  let remainder := wrap (size + sizeMarker) % 8
  if remainder > 0 then wrap (size + (8 - remainder)) else size

/-- The loop of `malloc` over the active heaps. -/
def activeLoop (env : Env) (size : ℕ) : ℕ → Option ℕ → Manager → Except Fault (Option ℕ × Manager)
  | _, none, s => .ok (none, s)
  | 0, some _, _ => .error .loop
  | fuel + 1, some current, s =>
    match (s.availableHeaps current).malloc s.mem size with
    | some (buffer, h, m) => .ok (some buffer, { s.setHeap current h with mem := m })
    | none =>
      let (current, s) := s.nextActiveHeap env
      activeLoop env size fuel current s

/-- The loop of `malloc` over the heaps with freed blocks. -/
def freedHeapsLoop (size endFreeHeap : ℕ) : ℕ → Manager → Except Fault (Option ℕ × Manager)
  | 0, _ => .error .loop
  | fuel + 1, s => do
    let (buffer, m) ← (s.availableHeaps s.activeFreeHeap).mallocFromFreed s.mem size
    let s := { s with mem := m }
    if buffer.isSome then return (buffer, s)
    let next := s.activeFreeHeap + 1
    let s := { s with activeFreeHeap := if next = s.heapsActualSize then 0 else next }
    if s.activeFreeHeap ≠ endFreeHeap then freedHeapsLoop size endFreeHeap fuel s
    else return (none, s)

/-- The number of heaps is set, and the initial heap initialised, by the first `malloc`. -/
def prepare (env : Env) (s : Manager) : Option ℕ × Manager :=
  let s := if s.heapsActualSize = 0 then { s with heapsActualSize := heapsSize } else s
  if s.activeHeap < s.heapsActualSize then
    let startHeap := s.availableHeaps s.activeHeap
    if s.activeHeap = 0 ∧ ¬ startHeap.isInit then
      (some s.activeHeap, s.setHeap s.activeHeap (startHeap.init env.initialHeap initialHeapSize))
    else (some s.activeHeap, s)
  else (none, s)

/-- `memory_manager::malloc` -/
def malloc (env : Env) (s : Manager) (size : ℕ) : Except Fault (Option ℕ × Manager) :=
  if size = 0 then return (none, s)
  else do
    let (current, s) := s.prepare env
    let size := adjustToMemBlock size
    let (buffer, s) ← activeLoop env size loopBound current s
    if buffer.isNone then freedHeapsLoop size s.activeFreeHeap loopBound s
    else return (buffer, s)

/-- The loop that looks for the heap of a pointer. -/
def findHeap (s : Manager) (ptr : ℕ) : Option ℕ :=
  ((List.range s.heapsActualSize).takeWhile fun i => (s.availableHeaps i).isInit).find? fun i =>
    (s.availableHeaps i).isInHeap ptr

/-- `memory_manager::free` -/
def free (s : Manager) (ptr : ℕ) : Manager :=
  if ptr = 0 then s
  else
    match s.findHeap ptr with
    | some _ => { s with mem := Heap.free s.mem ptr }
    | none => s

/-- The part of `realloc` behind `realloc_in_place`: a new block and a copy. -/
def reallocCopy (env : Env) (s : Manager) (ptr size origPtrSize : ℕ) :
    Except Fault (Option ℕ × Manager) := do
  let (newAlloc, s) ← s.malloc env size
  match newAlloc with
  | none => return (none, s)
  | some newAlloc =>
    let copySize := if size < origPtrSize then size else origPtrSize
    if copySize > 0 then
      let s := { s with mem := memcpy s.mem newAlloc ptr copySize }
      return (some newAlloc, s.free ptr)
    else return (some newAlloc, s)

/-- `memory_manager::realloc` -/
def realloc (env : Env) (s : Manager) (ptr size : ℕ) : Except Fault (Option ℕ × Manager) := do
  if size = 0 then return (none, s.free ptr)
  let size := adjustToMemBlock size
  match (if ptr ≠ 0 then s.findHeap ptr else none) with
  | none => s.reallocCopy env ptr size 0
  | some i =>
    let r ← (s.availableHeaps i).reallocInPlace s.mem ptr size
    let s := { s.setHeap i r.heap with mem := r.mem }
    match r.ptr with
    | some reallocPtr => return (some reallocPtr, s)
    | none => s.reallocCopy env ptr size r.origPtrSize

end Manager

end UosioCdt.Malloc
