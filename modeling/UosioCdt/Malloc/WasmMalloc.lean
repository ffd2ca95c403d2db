import UosioCdt.Malloc.WasmTheorems

/-!
# `malloc` on wasm32

Which requests `malloc` honours while memory lasts: the size and its header must not wrap, the size
must leave the highest bit of the size word alone, and the host must grant the pages.
-/

namespace UosioCdt.Malloc

open Aborting

/-! ## Sizes -/

/-- The rounded size, which wraps for the last three sizes. -/
lemma adjustToMemBlock_eq {n : ℕ} (hn : n < 2 ^ 32) :
    Manager.adjustToMemBlock n = if n ≤ 2 ^ 32 - 4 then (n + 3) / 8 * 8 + 4 else 4 := by
  unfold Manager.adjustToMemBlock wrap sizeMarker
  simp only
  split <;> split <;> omega

lemma adjustToMemBlock_small {n : ℕ} (hn : n ≤ 2 ^ 31 - 4) :
    Manager.adjustToMemBlock n % 8 = 4 ∧ n ≤ Manager.adjustToMemBlock n ∧
      Manager.adjustToMemBlock n < 2 ^ 31 := by
  rw [adjustToMemBlock_eq (by omega), if_pos (by omega)]
  omega

lemma adjustToMemBlock_lt {n : ℕ} (hn : n < 2 ^ 32) : Manager.adjustToMemBlock n < 2 ^ 32 := by
  rw [adjustToMemBlock_eq hn]
  split <;> omega

/-- The size of a request above the limit does not fit in the size word. -/
lemma adjustToMemBlock_large {n : ℕ} (hn : n < 2 ^ 32) (hlarge : 2 ^ 31 - 4 < n) :
    Manager.adjustToMemBlock n % 2 ^ 31 < n := by
  rw [adjustToMemBlock_eq hn]
  split <;> omega

/-- A block with its size word. -/
def newBlock (m : Mem) (p size : ℕ) : Mem := markAlloc (writeSize m p size) p

/-- The size word keeps the size without its highest bit. -/
lemma load_newBlock (m : Mem) (p : ℕ) {size : ℕ} (hsize : size < 2 ^ 32) :
    load (newBlock m p size) (marker p) &&& sizeMask = size % 2 ^ 31 := by
  -- `writeSize` keeps the bit that says whether the block is used, and `markAlloc` sets it
  have hstate : load m (marker p) &&& allocMask < 2 ^ 32 := by
    rw [and_allocMask _ (load_lt m _)]
    have hlt := load_lt m (marker p)
    omega
  have hword : size ||| (load m (marker p) &&& allocMask) < 2 ^ 32 := Nat.or_lt_two_pow hsize hstate
  have hwrite : load (writeSize m p size) (marker p) = size ||| (load m (marker p) &&& allocMask) :=
    load_store hword
  have hmark : load (newBlock m p size) (marker p) =
      (size ||| (load m (marker p) &&& allocMask)) ||| allocMask := by
    unfold newBlock markAlloc
    rw [hwrite]
    exact load_store (Nat.or_lt_two_pow hword (by decide))
  rw [hmark, and_sizeMask, or_allocMask _ hword, Nat.add_mod_right, Nat.mod_mod, Nat.or_mod_two_pow,
    and_allocMask _ (load_lt m _), Nat.mul_mod_left, Nat.or_zero]

/-- What a new block records. -/
lemma Machine.sizeAt_newBlock (s : Machine) (i : ℕ) (h : Heap) (p : ℕ) {size : ℕ}
    (hsize : size < 2 ^ 32) :
    (s.withMgr (s.mgr.setHeapMem i h (newBlock s.mgr.mem p size))).sizeAt p = size % 2 ^ 31 := by
  unfold sizeAt
  rw [withMgr_mgr, Manager.setHeapMem_mem]
  exact load_newBlock s.mgr.mem p hsize

/-! ## What every call returns -/

namespace Wasm

variable {host : Host} {s : Machine} {size current : ℕ}

/-- A heap records the size without its highest bit. -/
lemma heapMalloc_sizeAt (hsize : size < 2 ^ 32) :
    Ensures (heapMalloc current size) s
      (fun r t => ∀ p, r = some p → p < 2 ^ 32 ∧ t.sizeAt p = size % 2 ^ 31) := by
  unfold Ensures
  rw [meets_heapMalloc]
  rcases Heap.malloc_cases (s.mgr.availableHeaps current) s.mgr.mem size with
    ⟨hnone, -⟩ | ⟨-, ptr, hptr, hsome⟩
  · rw [hnone]
    intro p hp
    cases hp
  · rw [hsome]
    dsimp only
    split
    · intro p hp
      cases hp
      refine ⟨?_, s.sizeAt_newBlock current _ ptr hsize⟩
      rw [hptr]
      exact Nat.mod_lt _ (by decide)
    · trivial

/-- `next_active_heap` never gives up. -/
lemma nextActiveHeap_isSome :
    Ensures (nextActiveHeap host) s (fun r _ => ∃ i, r = some i) := by
  have huse : ∀ start adj (t : Machine),
      Ensures (useMemory start adj) t (fun r _ => ∃ i, r = some i) := by
    intro start adj t
    unfold Ensures
    rw [meets_useMemory]
    split
    · exact ⟨_, rfl⟩
    · split
      · exact ⟨_, rfl⟩
      · trivial
  have hnonneg : ∀ k : ℕ, ¬ (k : ℤ) < 0 := by
    intro k
    omega
  unfold Ensures nextActiveHeap
  simp only [meets_bind, meets_sbrk, if_neg (hnonneg _)]
  exact huse _ _ _

/-- The loop over the active heaps returns a block. -/
lemma activeLoop_sizeAt (hsize : size < 2 ^ 32) (fuel : ℕ) :
    Ensures (activeLoop host size fuel (some current)) s
      (fun r t => ∃ p, r = some p ∧ p < 2 ^ 32 ∧ t.sizeAt p = size % 2 ^ 31) := by
  induction fuel generalizing s current with
  | zero => trivial
  | succ fuel ih =>
    unfold Ensures
    rw [meets_activeLoop]
    apply (heapMalloc_sizeAt hsize).mono
    intro r t hr
    cases r with
    | some p => exact ⟨p, rfl, hr p rfl⟩
    | none =>
      apply nextActiveHeap_isSome.mono
      rintro next u ⟨i, rfl⟩
      exact ih

end Wasm

/-! ## The heaps -/

/-- A heap from `start` to `stop`, which is used up to its offset. -/
structure Heap.Area (h : Heap) (start stop : ℕ) : Prop where
  heap_eq : h.heap = start
  stop_eq : start + h.heapSize = stop
  offset_le : h.offset ≤ h.heapSize

lemma Heap.Area.setOffset {h : Heap} {start stop o : ℕ} (ha : h.Area start stop)
    (ho : o ≤ h.heapSize) : { h with offset := o }.Area start stop :=
  ⟨ha.heap_eq, ha.stop_eq, ho⟩

lemma Heap.isInit_heapSize (h : Heap) (heapSize : ℕ) : { h with heapSize }.isInit = h.isInit := rfl

lemma Heap.Area.isInit {h : Heap} {start stop : ℕ} (ha : h.Area start stop) (hstart : 0 < start) :
    h.isInit = true := by
  unfold Heap.isInit
  rw [ha.heap_eq]
  exact decide_eq_true hstart.ne'

/-- A block behind the offset. -/
lemma Heap.Area.malloc_fits {h : Heap} {start stop size : ℕ} (ha : h.Area start stop) (m : Mem)
    (hfits : start + h.offset + size + 4 ≤ stop) (hstop : stop < 2 ^ 32) :
    h.malloc m size = some (start + h.offset + 4, { h with offset := h.offset + size + 4 },
        newBlock m (start + h.offset + 4) size) ∧
      marker (start + h.offset + 4) = start + h.offset := by
  have hheap := ha.heap_eq
  have hend := ha.stop_eq
  have hused : ¬ wrap (wrap (h.offset + size) + sizeMarker) > h.heapSize := by
    unfold wrap sizeMarker
    omega
  have hptr : wrap (h.heap + wrap (h.offset + sizeMarker)) = start + h.offset + 4 := by
    unfold wrap sizeMarker
    omega
  have hoffset : wrap (h.offset + wrap (size + sizeMarker)) = h.offset + size + 4 := by
    unfold wrap sizeMarker
    omega
  constructor
  · unfold Heap.malloc
    rw [if_neg hused, hptr, hoffset]
    rfl
  · unfold marker diff sizeMarker
    omega

namespace Machine

variable {host : Host} {s t : Machine} {size : ℕ}

/-- Nothing was called yet. -/
structure Fresh (host : Host) (s : Machine) : Prop extends Backed s where
  initialHeap_pos : 0 < host.initialHeap
  inside : host.initialHeap + sizeofMemoryManager ≤ s.pages * 65536
  actual : s.mgr.heapsActualSize = 0
  active : s.mgr.activeHeap = 0
  uncalled : s.initialized = false
  unused : ∀ i, s.mgr.availableHeaps i = .empty

/-- The initial heap is in use, and no page was asked for. -/
structure OnlyInitial (s : Machine) : Prop where
  active : s.mgr.activeHeap = 0
  uncalled : s.initialized = false
  rest : ∀ i, 0 < i → s.mgr.availableHeaps i = .empty

/-- The second heap is in use, which ends where memory ends. -/
structure WithSecond (host : Host) (s : Machine) (start : ℕ) : Prop where
  active : s.mgr.activeHeap = 1
  called : s.initialized = true
  pages_lt : s.pages < 65536
  sbrk_eq : s.mgr.sbrkBytes = s.pages * 65536
  start_le : host.initialHeap + sizeofMemoryManager ≤ start
  area : (s.mgr.availableHeaps 1).Area start (s.pages * 65536)
  rest : ∀ i, 1 < i → s.mgr.availableHeaps i = .empty

/-- The heaps behind the first `malloc`, while no request has failed. -/
structure Running (host : Host) (s : Machine) : Prop extends Backed s where
  initialHeap_pos : 0 < host.initialHeap
  inside : host.initialHeap + sizeofMemoryManager ≤ s.pages * 65536
  actual : s.mgr.heapsActualSize = heapsSize
  initial : (s.mgr.availableHeaps 0).Area host.initialHeap (host.initialHeap + initialHeapSize)
  heaps : s.OnlyInitial ∨ ∃ start, s.WithSecond host start

/-- The pointer is behind the header of a block in front of the offset. -/
def Holds (s : Machine) (p : ℕ) : Prop :=
  ∃ i, (s.mgr.availableHeaps i).isInit = true ∧
    (s.mgr.availableHeaps i).heap + sizeMarker ≤ p ∧
    p ≤ (s.mgr.availableHeaps i).heap + (s.mgr.availableHeaps i).offset

/-- A change of the memory. -/
lemma Running.withMgr (h : s.Running host) {mgr : Manager} (hsbrk : mgr.sbrkBytes = s.mgr.sbrkBytes)
    (hheaps : mgr.availableHeaps = s.mgr.availableHeaps)
    (hactive : mgr.activeHeap = s.mgr.activeHeap)
    (hactual : mgr.heapsActualSize = s.mgr.heapsActualSize) : (s.withMgr mgr).Running host := by
  refine ⟨h.toBacked.withMgr hsbrk, h.initialHeap_pos, h.inside, hactual.trans h.actual, ?_, ?_⟩
  · rw [withMgr_mgr, hheaps]
    exact h.initial
  · rcases h.heaps with hfirst | ⟨start, hsecond⟩
    · left
      constructor
      case active => exact hactive.trans hfirst.active
      case uncalled => exact hfirst.uncalled
      case rest =>
        rw [withMgr_mgr, hheaps]
        exact hfirst.rest
    · right
      refine ⟨start, ?_⟩
      constructor
      case active => exact hactive.trans hsecond.active
      case called => exact hsecond.called
      case pages_lt => exact hsecond.pages_lt
      case sbrk_eq => exact hsbrk.trans hsecond.sbrk_eq
      case start_le => exact hsecond.start_le
      case area =>
        rw [withMgr_mgr, hheaps]
        exact hsecond.area
      case rest =>
        rw [withMgr_mgr, hheaps]
        exact hsecond.rest

/-- The offset of a heap that is in use moves. -/
lemma Running.setOffset (h : s.Running host) {i o : ℕ} {m : Mem}
    (hi : (s.mgr.availableHeaps i).isInit = true) (ho : o ≤ (s.mgr.availableHeaps i).heapSize) :
    (s.withMgr (s.mgr.setHeapMem i { s.mgr.availableHeaps i with offset := o } m)).Running host := by
  have harea : ∀ j start stop, (s.mgr.availableHeaps j).Area start stop →
      ((s.mgr.setHeapMem i { s.mgr.availableHeaps i with offset := o } m).availableHeaps j).Area
        start stop := by
    intro j start stop hj
    rw [Manager.setHeapMem_availableHeaps]
    by_cases hji : j = i
    · rw [hji, Manager.setHeap_of_eq]
      rw [hji] at hj
      exact hj.setOffset ho
    · rw [Manager.setHeap_of_ne hji]
      exact hj
  have hrest : ∀ j, s.mgr.availableHeaps j = .empty →
      (s.mgr.setHeapMem i { s.mgr.availableHeaps i with offset := o } m).availableHeaps j =
        .empty := by
    intro j hj
    have hji : j ≠ i := by
      rintro rfl
      rw [hj] at hi
      exact absurd hi (by decide)
    rw [Manager.setHeapMem_availableHeaps, Manager.setHeap_of_ne hji]
    exact hj
  refine ⟨h.toBacked.withMgr Manager.setHeapMem_sbrkBytes, h.initialHeap_pos, h.inside, h.actual,
    harea _ _ _ h.initial, ?_⟩
  rcases h.heaps with hfirst | ⟨start, hsecond⟩
  · exact .inl ⟨hfirst.active, hfirst.uncalled, fun j hj => hrest j (hfirst.rest j hj)⟩
  · exact .inr ⟨start, hsecond.active, hsecond.called, hsecond.pages_lt, hsecond.sbrk_eq,
      hsecond.start_le, harea _ _ _ hsecond.area, fun j hj => hrest j (hsecond.rest j hj)⟩

lemma wanted_initial (hactive : s.mgr.activeHeap = 0) (size : ℕ) :
    s.wanted size = if (s.mgr.availableHeaps 0).offset + size + 4 ≤ 8192 then 0
      else (size + 4 + 65535) / 65536 := by
  simp only [wanted, hactive, if_true, sizeMarker, initialHeapSize]

lemma wanted_second (hactive : s.mgr.activeHeap = 1) (size : ℕ) :
    s.wanted size = ((s.mgr.availableHeaps 1).offset + size + 4 -
      (s.mgr.availableHeaps 1).heapSize + 65535) / 65536 := by
  simp only [wanted, hactive, Nat.one_ne_zero, if_false, sizeMarker]

/-- The active heap lies in the memory, and `wanted` says whether a block fits behind its offset. -/
lemma Running.active_area (h : s.Running host) : ∃ start stop,
    (s.mgr.availableHeaps s.mgr.activeHeap).Area start stop ∧ 0 < start ∧
      stop ≤ s.pages * 65536 ∧ stop + 4 < 2 ^ 32 ∧
      ∀ size, s.wanted size = 0 ↔
        start + (s.mgr.availableHeaps s.mgr.activeHeap).offset + size + 4 ≤ stop := by
  have hpages := h.pages_le
  have hinside := h.inside
  have hpos := h.initialHeap_pos
  unfold sizeofMemoryManager initialHeapSize heapsSize at hinside
  rcases h.heaps with hfirst | ⟨start, hsecond⟩
  · refine ⟨host.initialHeap, host.initialHeap + initialHeapSize, ?_, hpos, ?_, ?_, ?_⟩
    · rw [hfirst.active]
      exact h.initial
    · unfold initialHeapSize
      omega
    · unfold initialHeapSize
      omega
    · intro size
      rw [wanted_initial hfirst.active, hfirst.active]
      unfold initialHeapSize
      split
      · omega
      · omega
  · have hstart := hsecond.start_le
    have hlt := hsecond.pages_lt
    unfold sizeofMemoryManager initialHeapSize heapsSize at hstart
    refine ⟨start, s.pages * 65536, ?_, by omega, le_rfl, by omega, ?_⟩
    · rw [hsecond.active]
      exact hsecond.area
    · intro size
      have hstop := hsecond.area.stop_eq
      rw [wanted_second hsecond.active, hsecond.active]
      omega

/-- What a call leaves that serves a request for `size` bytes with the block at `p`. -/
structure Served (host : Host) (s : Machine) (size p : ℕ) (t : Machine) : Prop where
  usable : t.Usable p size
  running : t.Running host
  holds : t.Holds p
  keeps : ∀ q, s.Holds q → t.Holds q

lemma Holds.setOffset {p i o : ℕ} {m : Mem} (h : s.Holds p)
    (ho : (s.mgr.availableHeaps i).offset ≤ o) :
    (s.withMgr (s.mgr.setHeapMem i { s.mgr.availableHeaps i with offset := o } m)).Holds p := by
  obtain ⟨j, hinit, hlow, hhigh⟩ := h
  refine ⟨j, ?_⟩
  rw [withMgr_mgr, Manager.setHeapMem_availableHeaps]
  by_cases hji : j = i
  · rw [hji] at hinit hlow hhigh
    rw [hji, Manager.setHeap_of_eq]
    exact ⟨hinit, hlow, hhigh.trans (Nat.add_le_add_left ho _)⟩
  · rw [Manager.setHeap_of_ne hji]
    exact ⟨hinit, hlow, hhigh⟩

/-- A block that fits behind the offset. -/
lemma Running.heapMalloc_fits (h : s.Running host) (hsize : size < 2 ^ 31)
    (hfits : s.wanted size = 0) :
    Returns (Wasm.heapMalloc s.mgr.activeHeap size) s
      (fun r t => ∃ p, r = some p ∧ s.Served host size p t) := by
  obtain ⟨start, stop, harea, hpos, hstop, hlt, hwanted⟩ := h.active_area
  have hheap := harea.heap_eq
  have hend := harea.stop_eq
  have hroom := (hwanted size).mp hfits
  have hinit := harea.isInit hpos
  obtain ⟨hmalloc, hmarker⟩ := harea.malloc_fits s.mgr.mem hroom (by omega)
  unfold Returns
  rw [Wasm.meets_heapMalloc, hmalloc]
  dsimp only
  rw [hmarker, if_pos (by omega)]
  generalize hoffset : (s.mgr.availableHeaps s.mgr.activeHeap).offset = offset at *
  generalize hp : start + offset + 4 = p at *
  have hsizeAt := sizeAt_newBlock s s.mgr.activeHeap
    { s.mgr.availableHeaps s.mgr.activeHeap with offset := offset + size + 4 } p
    (show size < 2 ^ 32 by omega)
  rw [Nat.mod_eq_of_lt hsize] at hsizeAt
  refine ⟨p, rfl, ⟨hsizeAt.ge, ?_, ?_⟩, h.setOffset hinit (by omega), ?_, fun q hq =>
    hq.setOffset (by omega)⟩
  · refine ⟨s.mgr.activeHeap, ?_⟩
    rw [hsizeAt, withMgr_mgr, Manager.setHeapMem_availableHeaps, Manager.setHeap_of_eq]
    unfold sizeMarker
    dsimp only
    exact ⟨hinit, by omega, by omega⟩
  · rw [hsizeAt, withMgr_pages]
    omega
  · refine ⟨s.mgr.activeHeap, ?_⟩
    rw [withMgr_mgr, Manager.setHeapMem_availableHeaps, Manager.setHeap_of_eq]
    unfold sizeMarker
    dsimp only
    exact ⟨hinit, by omega, by omega⟩

/-- A block that does not fit, while its end does not wrap. -/
lemma Running.heapMalloc_full (h : s.Running host) (hfull : s.wanted size ≠ 0)
    (hlt : (s.mgr.availableHeaps s.mgr.activeHeap).offset + size + 4 < 2 ^ 32) :
    Returns (Wasm.heapMalloc s.mgr.activeHeap size) s (fun r t => r = none ∧ t = s) := by
  obtain ⟨start, stop, harea, -, -, -, hwanted⟩ := h.active_area
  have hend := harea.stop_eq
  have hroom : ¬ start + (s.mgr.availableHeaps s.mgr.activeHeap).offset + size + 4 ≤ stop :=
    fun hfits => hfull ((hwanted size).mpr hfits)
  have hused : wrap (wrap ((s.mgr.availableHeaps s.mgr.activeHeap).offset + size) + sizeMarker) >
      (s.mgr.availableHeaps s.mgr.activeHeap).heapSize := by
    unfold wrap sizeMarker
    omega
  unfold Returns
  rw [Wasm.meets_heapMalloc]
  unfold Heap.malloc
  rw [if_pos hused]
  exact ⟨rfl, rfl⟩

/-! ## Room -/

/-- A page more, while there is room. -/
structure Grown (host : Host) (s t : Machine) : Prop where
  running : t.Running host
  pages_eq : t.pages = s.pages + 1
  grows_eq : t.grows = s.grows + 1
  keeps : ∀ p, s.Holds p → t.Holds p
  wanted_eq : ∀ size, s.wanted size ≠ 0 → t.wanted size + 1 = s.wanted size

/-- What `sbrk` changes when it hands out a page more. -/
structure Paged (s u : Machine) : Prop extends Backed u where
  called : u.initialized = true
  pages_eq : u.pages = s.pages + 1
  grows_eq : u.grows = s.grows + 1
  sbrk_eq : u.mgr.sbrkBytes = u.pages * 65536
  heaps_eq : u.mgr.availableHeaps = s.mgr.availableHeaps
  active_eq : u.mgr.activeHeap = s.mgr.activeHeap
  actual_eq : u.mgr.heapsActualSize = s.mgr.heapsActualSize

/-- The host grants a page. -/
lemma Backed.sbrk_granted (h : s.Backed) (hbytes : s.initSbrk.mgr.sbrkBytes = s.pages * 65536)
    (hpages : s.pages < 65535) (hgrant : host.grants s.grows = true) :
    ∃ u, s.initSbrk.sbrk host 65536 = (s.pages * 65536, u) ∧ s.Paged u := by
  have hsbrk := h.initSbrk.sbrk_page host s.initialized_initSbrk
  rw [hbytes, pages_initSbrk, grows_initSbrk, if_neg (by omega), if_pos hgrant] at hsbrk
  refine ⟨_, hsbrk, ?_⟩
  constructor
  case toBacked =>
    apply (h.initSbrk.grown _).advance
    · rw [grown_initialized]
      exact s.initialized_initSbrk
    · rw [grown_mgr, grown_pages, hbytes, pages_initSbrk]
      omega
    · rw [pages_initSbrk]
      omega
  case called =>
    rw [advance_initialized, grown_initialized]
    exact s.initialized_initSbrk
  case pages_eq => rw [advance_pages, grown_pages, pages_initSbrk]
  case grows_eq => rw [advance_grows, grown_grows, grows_initSbrk]
  case sbrk_eq =>
    rw [advance_sbrkBytes, advance_pages, grown_mgr, grown_pages, hbytes, pages_initSbrk]
    omega
  case heaps_eq => rw [advance_availableHeaps, grown_mgr, mgr_initSbrk_availableHeaps]
  case active_eq => rw [advance_activeHeap, grown_mgr, mgr_initSbrk_activeHeap]
  case actual_eq => rw [advance_heapsActualSize, grown_mgr, mgr_initSbrk_heapsActualSize]

/-- The second heap begins where memory ended. -/
lemma Running.grown_initial {u : Machine} (h : s.Running host) (hfirst : s.OnlyInitial)
    (hu : s.Paged u) (hpages : s.pages < 65535) :
    s.Grown host (u.withMgr (u.mgr.nextHeap (s.pages * 65536) 65536)) := by
  have hinside := h.inside
  have hactive : u.mgr.activeHeap = 0 := hu.active_eq.trans hfirst.active
  have hnew : (u.mgr.nextHeap (s.pages * 65536) 65536).availableHeaps 1 =
      ⟨65536, s.pages * 65536, 0⟩ := by
    have hempty : u.mgr.availableHeaps (u.mgr.activeHeap + 1) = .empty := by
      rw [hu.heaps_eq]
      exact hfirst.rest _ (Nat.succ_pos _)
    have hnext := Manager.nextHeap_new (s.pages * 65536) 65536 hempty
    rwa [hactive] at hnext
  have hold : (u.mgr.nextHeap (s.pages * 65536) 65536).availableHeaps 0 =
      { s.mgr.availableHeaps 0 with offset := (s.mgr.availableHeaps 0).heapSize } := by
    have hretired := u.mgr.nextHeap_active (s.pages * 65536) 65536
    rwa [hactive, hu.heaps_eq] at hretired
  have hrest : ∀ i, 1 < i →
      (u.mgr.nextHeap (s.pages * 65536) 65536).availableHeaps i = .empty := by
    intro i hi
    rw [Manager.nextHeap_other (by omega) (by omega), hu.heaps_eq]
    exact hfirst.rest i (by omega)
  constructor
  case running =>
    refine ⟨hu.toBacked.withMgr Manager.nextHeap_sbrkBytes, h.initialHeap_pos, ?_, ?_, ?_, ?_⟩
    · rw [withMgr_pages, hu.pages_eq]
      exact hinside.trans (Nat.mul_le_mul_right 65536 (Nat.le_succ s.pages))
    · rw [withMgr_mgr, Manager.nextHeap_heapsActualSize, hu.actual_eq]
      exact h.actual
    · rw [withMgr_mgr, hold]
      exact h.initial.setOffset le_rfl
    · right
      refine ⟨s.pages * 65536, ?_⟩
      constructor
      case active => rw [withMgr_mgr, Manager.nextHeap_activeHeap, hactive]
      case called => exact hu.called
      case pages_lt =>
        rw [withMgr_pages, hu.pages_eq]
        omega
      case sbrk_eq => exact hu.sbrk_eq
      case start_le => exact hinside
      case area =>
        rw [withMgr_mgr, withMgr_pages, hnew, hu.pages_eq]
        refine ⟨rfl, ?_, Nat.zero_le _⟩
        dsimp only
        omega
      case rest =>
        rw [withMgr_mgr]
        exact hrest
  case pages_eq => exact hu.pages_eq
  case grows_eq => exact hu.grows_eq
  case keeps =>
    rintro p ⟨i, hinit, hlow, hhigh⟩
    have hi : i = 0 := by
      by_contra hne
      rw [hfirst.rest i (Nat.pos_of_ne_zero hne)] at hinit
      exact absurd hinit (by decide)
    rw [hi] at hinit hlow hhigh
    refine ⟨0, ?_⟩
    rw [withMgr_mgr, hold]
    exact ⟨hinit, hlow, hhigh.trans (Nat.add_le_add_left h.initial.offset_le _)⟩
  case wanted_eq =>
    intro size hwanted
    have hsecond : (u.withMgr (u.mgr.nextHeap (s.pages * 65536) 65536)).mgr.activeHeap = 1 := by
      rw [withMgr_mgr, Manager.nextHeap_activeHeap, hactive]
    rw [wanted_initial hfirst.active] at hwanted ⊢
    rw [wanted_second hsecond, withMgr_mgr, hnew]
    split at hwanted
    · exact absurd rfl hwanted
    · rename_i hfull
      rw [if_neg hfull]
      dsimp only
      omega

/-- The second heap ends where memory ends now. -/
lemma Running.grown_second {u : Machine} {start : ℕ} (h : s.Running host)
    (hsecond : s.WithSecond host start) (hu : s.Paged u) (hpages : s.pages < 65535) :
    s.Grown host (u.withMgr (u.mgr.setHeap 1 { s.mgr.availableHeaps 1 with
      heapSize := (s.mgr.availableHeaps 1).heapSize + 65536 })) := by
  have hactive : u.mgr.activeHeap = 1 := hu.active_eq.trans hsecond.active
  have hnew : (u.mgr.setHeap 1 { s.mgr.availableHeaps 1 with
      heapSize := (s.mgr.availableHeaps 1).heapSize + 65536 }).availableHeaps 1 =
      { s.mgr.availableHeaps 1 with heapSize := (s.mgr.availableHeaps 1).heapSize + 65536 } :=
    Manager.setHeap_of_eq
  have hother : ∀ i, i ≠ 1 → (u.mgr.setHeap 1 { s.mgr.availableHeaps 1 with
      heapSize := (s.mgr.availableHeaps 1).heapSize + 65536 }).availableHeaps i =
      s.mgr.availableHeaps i := by
    intro i hi
    rw [Manager.setHeap_of_ne hi, hu.heaps_eq]
  have hstop := hsecond.area.stop_eq
  constructor
  case running =>
    refine ⟨hu.toBacked.withMgr rfl, h.initialHeap_pos, ?_, hu.actual_eq.trans h.actual, ?_, ?_⟩
    · rw [withMgr_pages, hu.pages_eq]
      exact h.inside.trans (Nat.mul_le_mul_right 65536 (Nat.le_succ s.pages))
    · rw [withMgr_mgr, hother 0 (by decide)]
      exact h.initial
    · right
      refine ⟨start, ?_⟩
      constructor
      case active => exact hactive
      case called => exact hu.called
      case pages_lt =>
        rw [withMgr_pages, hu.pages_eq]
        omega
      case sbrk_eq => exact hu.sbrk_eq
      case start_le => exact hsecond.start_le
      case area =>
        rw [withMgr_mgr, withMgr_pages, hnew, hu.pages_eq]
        refine ⟨hsecond.area.heap_eq, ?_, Nat.le_add_right_of_le hsecond.area.offset_le⟩
        dsimp only
        omega
      case rest =>
        intro i hi
        rw [withMgr_mgr, hother i (by omega)]
        exact hsecond.rest i hi
  case pages_eq => exact hu.pages_eq
  case grows_eq => exact hu.grows_eq
  case keeps =>
    rintro p ⟨i, hinit, hlow, hhigh⟩
    refine ⟨i, ?_⟩
    rw [withMgr_mgr]
    by_cases hi : i = 1
    · rw [hi] at hinit hlow hhigh
      rw [hi, hnew]
      exact ⟨hinit, hlow, hhigh⟩
    · rw [hother i hi]
      exact ⟨hinit, hlow, hhigh⟩
  case wanted_eq =>
    intro size hwanted
    have hstill : (u.withMgr (u.mgr.setHeap 1 { s.mgr.availableHeaps 1 with
        heapSize := (s.mgr.availableHeaps 1).heapSize + 65536 })).mgr.activeHeap = 1 := hactive
    rw [wanted_second hsecond.active] at hwanted ⊢
    rw [wanted_second hstill, withMgr_mgr, hnew]
    dsimp only
    omega

/-- The first call of `sbrk` sees the whole memory. -/
lemma OnlyInitial.sbrkBytes_initSbrk (h : s.OnlyInitial) :
    s.initSbrk.mgr.sbrkBytes = wrap (s.pages * 65536) := by
  unfold initSbrk
  rw [if_neg (by rw [h.uncalled]; decide)]

lemma Running.sbrkBytes_initSbrk (h : s.Running host) (hpages : s.pages < 65536) :
    s.initSbrk.mgr.sbrkBytes = s.pages * 65536 := by
  rcases h.heaps with hfirst | ⟨start, hsecond⟩
  · rw [hfirst.sbrkBytes_initSbrk]
    unfold wrap
    omega
  · rw [initSbrk_of_initialized hsecond.called]
    exact hsecond.sbrk_eq

/-- `next_active_heap` while the host grants the page. -/
lemma Running.nextActiveHeap_granted (h : s.Running host) (hpages : s.pages < 65535)
    (hgrant : host.grants s.grows = true) :
    Returns (Wasm.nextActiveHeap host) s
      (fun r t => r = some t.mgr.activeHeap ∧ s.Grown host t) := by
  have hbytes := h.sbrkBytes_initSbrk (by omega)
  obtain ⟨u, hsbrk, hu⟩ := h.toBacked.sbrk_granted hbytes hpages hgrant
  unfold Returns
  rw [Wasm.meets_nextActiveHeap h.toBacked, hsbrk]
  dsimp only
  rw [Wasm.meets_useMemory, hu.active_eq, hu.heaps_eq]
  rcases h.heaps with hfirst | ⟨start, hsecond⟩
  · have hend : (s.mgr.availableHeaps s.mgr.activeHeap).heapEnd ≠ s.pages * 65536 := by
      have hinside := h.inside
      unfold sizeofMemoryManager initialHeapSize heapsSize at hinside
      have hstop := h.initial.stop_eq
      unfold initialHeapSize at hstop
      rw [hfirst.active]
      unfold Heap.heapEnd wrap
      rw [h.initial.heap_eq, hstop]
      omega
    -- the initial heap lies in the memory, and so does the size word of its rest
    have hrest : Wasm.restMarker u + 4 ≤ u.pages * 65536 := by
      have hinside := h.inside
      have hpages_le := h.pages_le
      have hheap := h.initial.heap_eq
      have hstop := h.initial.stop_eq
      have hoffset := h.initial.offset_le
      unfold sizeofMemoryManager initialHeapSize heapsSize at hinside
      unfold initialHeapSize at hstop
      unfold Wasm.restMarker
      rw [hu.active_eq, hu.heaps_eq, hu.pages_eq, hfirst.active]
      dsimp only
      unfold marker diff wrap sizeMarker
      omega
    rw [Heap.expandMemory_of_ne hend]
    dsimp only
    rw [if_pos (.inr hrest)]
    refine ⟨?_, h.grown_initial hfirst hu hpages⟩
    rw [withMgr_mgr, Manager.nextHeap_activeHeap, hu.active_eq]
  · have hend : (s.mgr.availableHeaps s.mgr.activeHeap).heapEnd = s.pages * 65536 := by
      rw [hsecond.active]
      unfold Heap.heapEnd wrap
      rw [hsecond.area.heap_eq, hsecond.area.stop_eq]
      omega
    -- the area ends below 2^32 with the new page as well
    have hsize : wrap ((s.mgr.availableHeaps 1).heapSize + 65536) =
        (s.mgr.availableHeaps 1).heapSize + 65536 := by
      have hstop := hsecond.area.stop_eq
      unfold wrap
      omega
    rw [Heap.expandMemory_of_eq hend, hsecond.active, hsize]
    exact ⟨congrArg some (hu.active_eq.trans hsecond.active).symm,
      h.grown_second hsecond hu hpages⟩

/-- With a page more there is room for the rest, and only then. -/
lemma Grown.room_iff (h : s.Grown host t) (hfull : s.wanted size ≠ 0) (hpages : s.pages < 65535)
    (hgrant : host.grants s.grows = true) : t.Room host size ↔ s.Room host size := by
  have hwanted := h.wanted_eq size hfull
  unfold Room
  rw [h.pages_eq, h.grows_eq]
  constructor
  · rintro (hzero | ⟨hlt, hall⟩)
    · refine .inr ⟨by omega, fun j hj => ?_⟩
      -- the page that was granted is the only one
      have hj0 : j = 0 := by omega
      rw [hj0]
      exact hgrant
    · refine .inr ⟨by omega, fun j hj => ?_⟩
      cases j with
      | zero => exact hgrant
      | succ j =>
        have hnext := hall j (by omega)
        rwa [Nat.add_assoc, Nat.add_comm 1 j] at hnext
  · rintro (hzero | ⟨hlt, hall⟩)
    · exact absurd hzero hfull
    · refine .inr ⟨by omega, fun j hj => ?_⟩
      rw [Nat.add_assoc, Nat.add_comm 1 j]
      exact hall (j + 1) (by omega)

/-- Where there is room, the end of the block does not wrap. -/
lemma Running.no_wrap (h : s.Running host) (hsize : size < 2 ^ 31)
    (hpages : s.pages + s.wanted size < 65536) :
    (s.mgr.availableHeaps s.mgr.activeHeap).offset + size + 4 < 2 ^ 32 := by
  rcases h.heaps with hfirst | ⟨start, hsecond⟩
  · have hoffset := h.initial.offset_le
    have hstop := h.initial.stop_eq
    have hheap := h.initial.heap_eq
    unfold initialHeapSize at hstop
    rw [hfirst.active]
    omega
  · have hstop := hsecond.area.stop_eq
    rw [wanted_second hsecond.active] at hpages
    rw [hsecond.active]
    omega

lemma Served.trans {u : Machine} {p : ℕ} (hkeeps : ∀ q, s.Holds q → t.Holds q)
    (h : t.Served host size p u) : s.Served host size p u :=
  ⟨h.usable, h.running, h.holds, fun q hq => h.keeps q (hkeeps q hq)⟩

/-- Where there is room, the loop finds it. -/
lemma Running.activeLoop_room (h : s.Running host) (hsize : size < 2 ^ 31)
    (hroom : s.Room host size) {fuel : ℕ} (hfuel : s.wanted size < fuel) :
    Returns (Wasm.activeLoop host size fuel (some s.mgr.activeHeap)) s
      (fun r t => ∃ p, r = some p ∧ s.Served host size p t) := by
  induction fuel generalizing s with
  | zero => exact absurd hfuel (Nat.not_lt_zero _)
  | succ fuel ih =>
    unfold Returns
    rw [Wasm.meets_activeLoop]
    by_cases hfits : s.wanted size = 0
    · apply Returns.mono (h.heapMalloc_fits hsize hfits)
      rintro r t ⟨p, rfl, hp⟩
      exact ⟨p, rfl, hp⟩
    · have hall := hroom.resolve_left hfits
      have hpages : s.pages < 65535 := by omega
      have hgrant : host.grants s.grows = true := hall.2 0 (Nat.pos_of_ne_zero hfits)
      apply Returns.mono (h.heapMalloc_full hfits (h.no_wrap hsize hall.1))
      rintro r t ⟨rfl, rfl⟩
      apply Returns.mono (h.nextActiveHeap_granted hpages hgrant)
      rintro next u ⟨rfl, hu⟩
      -- every round wants one page less, which is what the fuel is counted for
      have hwanted := hu.wanted_eq size hfits
      apply Returns.mono (ih hu.running ((hu.room_iff hfits hpages hgrant).mpr hroom) (by omega))
      rintro r v ⟨p, rfl, hp⟩
      exact ⟨p, rfl, hp.trans hu.keeps⟩

/-! ## No room -/

/-- The block that the active heap gives next. -/
def nextPtr (s : Machine) : ℕ :=
  wrap ((s.mgr.availableHeaps s.mgr.activeHeap).heap +
    wrap ((s.mgr.availableHeaps s.mgr.activeHeap).offset + sizeMarker))

/-- The next block of `size` bytes lies in no heap, or passes the end of the memory. -/
def Stray (s : Machine) (size : ℕ) : Prop :=
  (∀ i, (s.mgr.availableHeaps i).isInit = true →
    s.nextPtr < (s.mgr.availableHeaps i).heap + sizeMarker) ∨
  s.pages * 65536 < s.nextPtr + size

/-- A stray block is of no use. -/
lemma Stray.heapMalloc (h : s.Stray size) (hsize : size < 2 ^ 31) :
    Ensures (Wasm.heapMalloc s.mgr.activeHeap size) s
      (fun r t => r = none ∧ t = s ∨ ∃ p, r = some p ∧ ∀ n, ¬ t.Usable p n) := by
  unfold Ensures
  rw [Wasm.meets_heapMalloc]
  rcases Heap.malloc_cases (s.mgr.availableHeaps s.mgr.activeHeap) s.mgr.mem size with
    ⟨hnone, -⟩ | ⟨-, ptr, hptr, hsome⟩
  · rw [hnone]
    exact .inl ⟨rfl, rfl⟩
  · rw [hsome]
    dsimp only
    split
    · refine .inr ⟨ptr, rfl, fun n hu => ?_⟩
      have hptr : ptr = s.nextPtr := hptr
      have hrecorded := sizeAt_newBlock s s.mgr.activeHeap
        { s.mgr.availableHeaps s.mgr.activeHeap with
          offset := wrap ((s.mgr.availableHeaps s.mgr.activeHeap).offset +
            wrap (size + sizeMarker)) } ptr (show size < 2 ^ 32 by omega)
      rw [Nat.mod_eq_of_lt hsize] at hrecorded
      -- either no heap holds the pointer, or the block passes the end of the memory
      rcases h with hnowhere | hout
      · obtain ⟨i, hinit, hlow, -⟩ := hu.inHeap
        rw [withMgr_mgr, Manager.setHeapMem_availableHeaps] at hinit hlow
        by_cases hi : i = s.mgr.activeHeap
        · rw [hi, Manager.setHeap_of_eq] at hinit hlow
          have hlt := hnowhere s.mgr.activeHeap hinit
          dsimp only at hlow
          omega
        · rw [Manager.setHeap_of_ne hi] at hinit hlow
          have hlt := hnowhere i hinit
          omega
      · have hin := hu.inMemory
        unfold newBlock at hrecorded
        rw [hrecorded, withMgr_pages] at hin
        omega
    · trivial

/-- Every page of the address space but the last is there: no page is asked for any more, and the
active heap passes the end of the memory. -/
structure Hopeless (size : ℕ) (s : Machine) : Prop extends Backed s where
  called : s.initialized = true
  full : 65535 ≤ s.pages
  ends : (s.mgr.availableHeaps s.mgr.activeHeap).heapEnd = s.mgr.sbrkBytes
  stray : s.Stray size

/-- The active heap grows, and its next block stays where it is. -/
lemma Hopeless.nextActiveHeap (h : s.Hopeless size) :
    Ensures (Wasm.nextActiveHeap host) s
      (fun r t => r = some t.mgr.activeHeap ∧ t.Hopeless size) := by
  have hpages := h.pages_le
  have hfull := h.full
  have hlt := h.sbrk_lt
  have hthere : s.mgr.sbrkBytes < s.pages * 65536 ∨ s.pages = 65535 := by omega
  unfold Ensures
  rw [Wasm.meets_nextActiveHeap h.toBacked, initSbrk_of_initialized h.called,
    h.toBacked.sbrk_page host h.called, if_pos hthere]
  dsimp only
  rw [Wasm.meets_useMemory, advance_availableHeaps, advance_activeHeap,
    Heap.expandMemory_of_eq h.ends]
  dsimp only
  have hnew : ∀ d : Heap, ((s.advance 65536).withMgr
      ((s.advance 65536).mgr.setHeap s.mgr.activeHeap d)).mgr.availableHeaps s.mgr.activeHeap = d :=
    fun _ => Manager.setHeap_of_eq
  have hactive : ∀ d : Heap, ((s.advance 65536).withMgr
      ((s.advance 65536).mgr.setHeap s.mgr.activeHeap d)).mgr.activeHeap = s.mgr.activeHeap :=
    fun _ => by rw [withMgr_mgr, Manager.setHeap_activeHeap, advance_activeHeap]
  refine ⟨congrArg some (hactive _).symm, ?_⟩
  constructor
  case toBacked => exact Backed.withMgr (h.toBacked.advance h.called hthere) rfl
  case called =>
    rw [withMgr_initialized, advance_initialized]
    exact h.called
  case full =>
    rw [withMgr_pages, advance_pages]
    exact h.full
  case ends =>
    have hends := h.ends
    rw [hactive, hnew, withMgr_mgr, Manager.setHeap_sbrkBytes, advance_sbrkBytes]
    unfold Heap.heapEnd wrap at hends ⊢
    dsimp only
    omega
  case stray =>
    -- the size of the heap is no part of the pointer
    have hptr : ∀ n, ((s.advance 65536).withMgr ((s.advance 65536).mgr.setHeap s.mgr.activeHeap
        { s.mgr.availableHeaps s.mgr.activeHeap with heapSize := n })).nextPtr = s.nextPtr := by
      intro n
      unfold nextPtr
      rw [hactive, hnew]
    rcases h.stray with hnowhere | hout
    · left
      intro i hinit
      rw [hptr]
      by_cases hi : i = s.mgr.activeHeap
      · rw [hi, hnew] at hinit ⊢
        rw [Heap.isInit_heapSize] at hinit
        dsimp only
        exact hnowhere _ hinit
      · rw [withMgr_mgr, Manager.setHeap_of_ne hi, advance_availableHeaps] at hinit ⊢
        exact hnowhere i hinit
    · right
      rw [hptr, withMgr_pages, advance_pages]
      exact hout

/-- The loop gives no block that is of use. -/
lemma Hopeless.activeLoop (h : s.Hopeless size) (hsize : size < 2 ^ 31) (fuel : ℕ) :
    Ensures (Wasm.activeLoop host size fuel (some s.mgr.activeHeap)) s
      (fun r t => ∃ p, r = some p ∧ ∀ n, ¬ t.Usable p n) := by
  induction fuel generalizing s with
  | zero => trivial
  | succ fuel ih =>
    unfold Ensures
    rw [Wasm.meets_activeLoop]
    apply (h.stray.heapMalloc hsize).mono
    rintro r t (⟨rfl, rfl⟩ | ⟨p, rfl, hp⟩)
    · apply h.nextActiveHeap.mono
      rintro next u ⟨rfl, hu⟩
      exact ih hu
    · exact ⟨p, rfl, hp⟩

/-- A block that does not fit is refused, or its end wraps and it passes the end of the memory. -/
lemma Running.heapMalloc_stray (h : s.Running host) (hsize : size < 2 ^ 31)
    (hfull : s.wanted size ≠ 0) :
    Ensures (Wasm.heapMalloc s.mgr.activeHeap size) s
      (fun r t => r = none ∧ t = s ∨ ∃ p, r = some p ∧ ∀ n, ¬ t.Usable p n) := by
  by_cases hlt : (s.mgr.availableHeaps s.mgr.activeHeap).offset + size + 4 < 2 ^ 32
  · apply (h.heapMalloc_full hfull hlt).ensures.mono
    exact fun _ _ hnone => .inl hnone
  · have hstray : s.Stray size := by
      obtain ⟨start, stop, harea, hpos, hstop, hbound, -⟩ := h.active_area
      have hheap := harea.heap_eq
      have hend := harea.stop_eq
      have hoffset := harea.offset_le
      have hpages := h.pages_le
      right
      unfold nextPtr wrap sizeMarker
      omega
    exact hstray.heapMalloc hsize

/-- The second heap begins where the last page would be, or at zero. -/
lemma OnlyInitial.hopeless (h : s.Running host) (hfirst : s.OnlyInitial)
    (hpages : 65535 ≤ s.pages) {u : Machine} (hu : u = s.initSbrk.advance 65536) :
    (u.withMgr (u.mgr.nextHeap (wrap (s.pages * 65536)) 65536)).Hopeless size := by
  have hle := h.pages_le
  have hbytes := hfirst.sbrkBytes_initSbrk
  have hpages_eq : u.pages = s.pages := by
    rw [hu, advance_pages, pages_initSbrk]
  have hheaps : u.mgr.availableHeaps = s.mgr.availableHeaps := by
    rw [hu, advance_availableHeaps, mgr_initSbrk_availableHeaps]
  have hactive : u.mgr.activeHeap = 0 := by
    rw [hu, advance_activeHeap, mgr_initSbrk_activeHeap]
    exact hfirst.active
  have hsbrk : u.mgr.sbrkBytes = (wrap (s.pages * 65536) + 65536) % 2 ^ 32 := by
    rw [hu, advance_sbrkBytes, hbytes]
  have hstart : (u.withMgr (u.mgr.nextHeap (wrap (s.pages * 65536)) 65536)).mgr.activeHeap = 1 := by
    rw [withMgr_mgr, Manager.nextHeap_activeHeap, hactive]
  have hnew : (u.withMgr (u.mgr.nextHeap (wrap (s.pages * 65536)) 65536)).mgr.availableHeaps 1 =
      ⟨65536, wrap (s.pages * 65536), 0⟩ := by
    have hempty : u.mgr.availableHeaps (u.mgr.activeHeap + 1) = .empty := by
      rw [hheaps]
      exact hfirst.rest _ (Nat.succ_pos _)
    have hnext := Manager.nextHeap_new (wrap (s.pages * 65536)) 65536 hempty
    rwa [hactive] at hnext
  constructor
  case toBacked =>
    refine Backed.withMgr ?_ Manager.nextHeap_sbrkBytes
    rw [hu]
    apply h.toBacked.initSbrk.advance s.initialized_initSbrk
    rw [hbytes, pages_initSbrk]
    unfold wrap
    omega
  case called =>
    rw [withMgr_initialized, hu, advance_initialized]
    exact s.initialized_initSbrk
  case full =>
    rw [withMgr_pages, hpages_eq]
    exact hpages
  case ends =>
    rw [hstart, hnew, withMgr_mgr, Manager.nextHeap_sbrkBytes, hsbrk]
    rfl
  case stray =>
    have hptr : (u.withMgr (u.mgr.nextHeap (wrap (s.pages * 65536)) 65536)).nextPtr =
        (wrap (s.pages * 65536) + 4) % 2 ^ 32 := by
      unfold nextPtr
      rw [hstart, hnew]
      rfl
    unfold Stray
    rw [hptr, withMgr_pages, hpages_eq]
    by_cases hlast : s.pages = 65535
    · right
      rw [hlast]
      unfold wrap
      omega
    · left
      -- with 65536 pages the area begins at zero, in front of every heap
      have hzero : wrap (s.pages * 65536) = 0 := by
        unfold wrap
        omega
      intro i hinit
      unfold Heap.isInit at hinit
      have hne := of_decide_eq_true hinit
      rw [hzero] at hne ⊢
      unfold sizeMarker
      omega

/-- Without another page, nothing that is returned is of use. -/
lemma Running.nextActiveHeap_full (h : s.Running host) (hfull : s.wanted size ≠ 0)
    (hpages : 65535 ≤ s.pages) :
    Ensures (Wasm.nextActiveHeap host) s
      (fun r t => r = some t.mgr.activeHeap ∧ t.Hopeless size) := by
  have hle := h.pages_le
  rcases h.heaps with hfirst | ⟨start, hsecond⟩
  · have hbytes := hfirst.sbrkBytes_initSbrk
    have hthere : s.initSbrk.mgr.sbrkBytes < s.initSbrk.pages * 65536 ∨
        s.initSbrk.pages = 65535 := by
      rw [hbytes, pages_initSbrk]
      unfold wrap
      omega
    unfold Ensures
    rw [Wasm.meets_nextActiveHeap h.toBacked,
      h.toBacked.initSbrk.sbrk_page host s.initialized_initSbrk, if_pos hthere, hbytes]
    dsimp only
    have hend : (s.mgr.availableHeaps 0).heapEnd ≠ wrap (s.pages * 65536) := by
      have hinside := h.inside
      have hstop := h.initial.stop_eq
      unfold sizeofMemoryManager initialHeapSize heapsSize at hinside
      unfold initialHeapSize at hstop
      unfold Heap.heapEnd wrap
      rw [h.initial.heap_eq, hstop]
      omega
    rw [Wasm.meets_useMemory, advance_availableHeaps, advance_activeHeap,
      mgr_initSbrk_availableHeaps, mgr_initSbrk_activeHeap, hfirst.active,
      Heap.expandMemory_of_ne hend]
    dsimp only
    split
    · refine ⟨?_, OnlyInitial.hopeless h hfirst hpages rfl⟩
      rw [withMgr_mgr, Manager.nextHeap_activeHeap, advance_activeHeap, mgr_initSbrk_activeHeap,
        hfirst.active]
    · trivial
  · have hlt := hsecond.pages_lt
    have hstop := hsecond.area.stop_eq
    have hheap := hsecond.area.heap_eq
    have hoffset := hsecond.area.offset_le
    have hhopeless : s.Hopeless size := by
      refine ⟨h.toBacked, hsecond.called, hpages, ?_, .inr ?_⟩
      · rw [hsecond.active, hsecond.sbrk_eq]
        unfold Heap.heapEnd wrap
        omega
      · rw [wanted_second hsecond.active] at hfull
        unfold nextPtr
        rw [hsecond.active]
        unfold wrap sizeMarker
        omega
    exact hhopeless.nextActiveHeap

lemma Running.sane (h : s.Running host) : s.Sane := by
  have hpages := h.pages_le
  have hinside := h.inside
  have hempty : Heap.empty.heapEnd ≠ 2 ^ 32 - 1 := by decide
  have hinitial : (s.mgr.availableHeaps 0).heapEnd ≠ 2 ^ 32 - 1 := by
    have hheap := h.initial.heap_eq
    have hstop := h.initial.stop_eq
    unfold sizeofMemoryManager initialHeapSize heapsSize at hinside
    unfold initialHeapSize at hstop
    unfold Heap.heapEnd wrap
    omega
  rcases h.heaps with hfirst | ⟨start, hsecond⟩
  · refine ⟨h.toBacked, fun i => ?_, fun i hi => ?_⟩
    · by_cases hi : i = 0
      · rw [hi]
        exact hinitial
      · rw [hfirst.rest i (Nat.pos_of_ne_zero hi)]
        exact hempty
    · rw [hfirst.active] at hi
      exact hfirst.rest i hi
  · have hstop : (s.mgr.availableHeaps 1).heapEnd ≠ 2 ^ 32 - 1 := by
      have hlt := hsecond.pages_lt
      unfold Heap.heapEnd wrap
      rw [hsecond.area.heap_eq, hsecond.area.stop_eq]
      omega
    refine ⟨h.toBacked, fun i => ?_, fun i hi => ?_⟩
    · by_cases hi : i = 0
      · rw [hi]
        exact hinitial
      · by_cases hi' : i = 1
        · rw [hi']
          exact hstop
        · rw [hsecond.rest i (by omega)]
          exact hempty
    · rw [hsecond.active] at hi
      exact hsecond.rest i hi

/-- A page that is refused: a heap at the failure value. -/
lemma Running.nextActiveHeap_refused (h : s.Running host) (hpages : s.pages < 65535)
    (hgrant : ¬ host.grants s.grows = true) :
    Ensures (Wasm.nextActiveHeap host) s (fun r t => r = some t.mgr.activeHeap ∧ t.Poisoned) := by
  have hsbrk := h.toBacked.initSbrk.sbrk_page host s.initialized_initSbrk
  rw [h.sbrkBytes_initSbrk (by omega), pages_initSbrk, grows_initSbrk, if_neg (by omega),
    if_neg hgrant] at hsbrk
  -- `sbrk` gives the failure value, with which a heap is initialised
  have hsane : s.initSbrk.refused.Sane :=
    h.sane.initSbrk.of_backed h.toBacked.initSbrk.refused rfl rfl
  unfold Ensures
  rw [Wasm.meets_nextActiveHeap h.toBacked, hsbrk]
  exact hsane.useMemory_failed

/-- Where there is no room, the loop gives no block that is of use. -/
lemma Running.activeLoop_noRoom (h : s.Running host) (hsize : size < 2 ^ 31)
    (hroom : ¬ s.Room host size) (fuel : ℕ) :
    Ensures (Wasm.activeLoop host size fuel (some s.mgr.activeHeap)) s
      (fun r t => ∃ p, r = some p ∧ ∀ n, ¬ t.Usable p n) := by
  induction fuel generalizing s with
  | zero => trivial
  | succ fuel ih =>
    -- no room is left by a round either: it is refused, or one page more is not enough
    have hfull : s.wanted size ≠ 0 := fun hzero => hroom (.inl hzero)
    unfold Ensures
    rw [Wasm.meets_activeLoop]
    apply (h.heapMalloc_stray hsize hfull).mono
    rintro r t (⟨rfl, ht⟩ | ⟨p, rfl, hp⟩)
    · rw [ht]
      by_cases hpages : s.pages < 65535
      · by_cases hgrant : host.grants s.grows = true
        · apply (h.nextActiveHeap_granted hpages hgrant).ensures.mono
          rintro next u ⟨rfl, hu⟩
          exact ih hu.running (fun hu' => hroom ((hu.room_iff hfull hpages hgrant).mp hu'))
        · apply (h.nextActiveHeap_refused hpages hgrant).mono
          rintro next u ⟨rfl, hu⟩
          exact (hu.activeLoop size fuel).mono fun _ _ hfalse => hfalse.elim
      · apply (h.nextActiveHeap_full hfull (not_lt.1 hpages)).mono
        rintro next u ⟨rfl, hu⟩
        exact hu.activeLoop hsize fuel
    · exact ⟨p, rfl, hp⟩

end Machine

end UosioCdt.Malloc
