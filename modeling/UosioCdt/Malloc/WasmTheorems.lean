import UosioCdt.Lib.Aborting
import UosioCdt.Malloc.SimpleMallocTheorems
import UosioCdt.Malloc.Wasm

/-!
# Theorems: exhausted memory on wasm32

The failure value of `sbrk` is not recognised: a descriptor is initialised from it, and the next
access to the heap traps.
-/

namespace UosioCdt.Malloc

open Aborting

/-! ## `sbrk` -/

namespace Machine

variable {host : Host} {s : Machine}

/-- `sbrk_bytes` is a whole number of pages, all of which are there. -/
structure Backed (s : Machine) : Prop where
  pages_le : s.pages ≤ 65536
  sbrk_lt : s.mgr.sbrkBytes < 2 ^ 32
  sbrk_mod : s.initialized → s.mgr.sbrkBytes % 65536 = 0
  sbrk_le : s.initialized → s.mgr.sbrkBytes ≤ s.pages * 65536

lemma initialized_initSbrk (s : Machine) : s.initSbrk.initialized = true := by
  unfold initSbrk
  split
  · assumption
  · rfl

lemma initSbrk_of_initialized (h : s.initialized = true) : s.initSbrk = s := if_pos h

@[simp] lemma failures_initSbrk (s : Machine) : s.initSbrk.failures = s.failures := by
  unfold initSbrk
  split <;> rfl

@[simp] lemma pages_initSbrk (s : Machine) : s.initSbrk.pages = s.pages := by
  unfold initSbrk
  split <;> rfl

@[simp] lemma grows_initSbrk (s : Machine) : s.initSbrk.grows = s.grows := by
  unfold initSbrk
  split <;> rfl

/-- The first call changes `sbrk_bytes` of the manager, and nothing else. -/
lemma exists_mgr_initSbrk (s : Machine) :
    ∃ bytes, s.initSbrk.mgr = { s.mgr with sbrkBytes := bytes } := by
  by_cases h : s.initialized = true
  · rw [initSbrk_of_initialized h]
    exact ⟨s.mgr.sbrkBytes, rfl⟩
  · have hfirst : s.initSbrk = _ := if_neg h
    exact ⟨wrap (s.pages * 65536), congrArg mgr hfirst⟩

@[simp] lemma mgr_initSbrk_availableHeaps (s : Machine) :
    s.initSbrk.mgr.availableHeaps = s.mgr.availableHeaps := by
  obtain ⟨bytes, hbytes⟩ := s.exists_mgr_initSbrk
  rw [hbytes]

@[simp] lemma mgr_initSbrk_activeHeap (s : Machine) :
    s.initSbrk.mgr.activeHeap = s.mgr.activeHeap := by
  obtain ⟨bytes, hbytes⟩ := s.exists_mgr_initSbrk
  rw [hbytes]

@[simp] lemma mgr_initSbrk_heapsActualSize (s : Machine) :
    s.initSbrk.mgr.heapsActualSize = s.mgr.heapsActualSize := by
  obtain ⟨bytes, hbytes⟩ := s.exists_mgr_initSbrk
  rw [hbytes]

lemma Backed.initSbrk (h : s.Backed) : s.initSbrk.Backed := by
  unfold Machine.initSbrk
  split
  · exact h
  · refine ⟨h.pages_le, ?_, ?_, ?_⟩
    · exact Nat.mod_lt _ (by decide)
    · intro _
      show s.pages * 65536 % 2 ^ 32 % 65536 = 0
      omega
    · intro _
      exact Nat.mod_le _ _

@[simp] lemma advance_pages (n : ℕ) : (s.advance n).pages = s.pages := rfl

@[simp] lemma advance_initialized (n : ℕ) : (s.advance n).initialized = s.initialized := rfl

@[simp] lemma advance_grows (n : ℕ) : (s.advance n).grows = s.grows := rfl

@[simp] lemma advance_failures (n : ℕ) : (s.advance n).failures = s.failures := rfl

@[simp] lemma advance_sbrkBytes (n : ℕ) :
    (s.advance n).mgr.sbrkBytes = (s.mgr.sbrkBytes + n) % 2 ^ 32 := rfl

@[simp] lemma advance_availableHeaps (n : ℕ) :
    (s.advance n).mgr.availableHeaps = s.mgr.availableHeaps := rfl

@[simp] lemma advance_activeHeap (n : ℕ) : (s.advance n).mgr.activeHeap = s.mgr.activeHeap := rfl

@[simp] lemma advance_heapsActualSize (n : ℕ) :
    (s.advance n).mgr.heapsActualSize = s.mgr.heapsActualSize := rfl

/-- A request for nothing reports `sbrk_bytes`. -/
lemma Backed.sbrk_zero (h : s.Backed) (host : Host) (hinit : s.initialized = true) :
    s.sbrk host 0 = (s.mgr.sbrkBytes, s) := by
  have hmod := h.sbrk_mod hinit
  have hle := h.sbrk_le hinit
  have hlt := h.sbrk_lt
  have hdesired : ¬ diff (wrap (s.mgr.sbrkBytes + wrap (0 + 7) / 8 * 8 + 65536)) 1 / 65536
      > s.pages := by
    unfold diff wrap
    omega
  have hsame : s.advance (wrap (0 + 7) / 8 * 8) = s := by
    have hbytes : wrap (s.mgr.sbrkBytes + wrap (0 + 7) / 8 * 8) = s.mgr.sbrkBytes :=
      Nat.mod_eq_of_lt hlt
    unfold advance
    rw [hbytes]
  unfold sbrk
  simp only [initSbrk_of_initialized hinit]
  rw [if_neg (by decide), if_neg hdesired, hsame]

/-- A page more. -/
def grown (s : Machine) : Machine := { s with pages := s.pages + 1, grows := s.grows + 1 }

@[simp] lemma grown_mgr : s.grown.mgr = s.mgr := rfl

@[simp] lemma grown_pages : s.grown.pages = s.pages + 1 := rfl

@[simp] lemma grown_grows : s.grown.grows = s.grows + 1 := rfl

@[simp] lemma grown_initialized : s.grown.initialized = s.initialized := rfl

/-- A page was refused. -/
def refused (s : Machine) : Machine :=
  { s with grows := s.grows + 1, failures := s.failures + 1 }

/-- A request for a page: the page is there already or would be the last one of the address space,
or the host is asked for it. -/
lemma Backed.sbrk_page (h : s.Backed) (host : Host) (hinit : s.initialized = true) :
    s.sbrk host 65536 =
      if s.mgr.sbrkBytes < s.pages * 65536 ∨ s.pages = 65535 then
        (s.mgr.sbrkBytes, s.advance 65536)
      else if host.grants s.grows then (s.mgr.sbrkBytes, s.grown.advance 65536)
      else (2 ^ 32 - 1, s.refused) := by
  have hmod := h.sbrk_mod hinit
  have hle := h.sbrk_le hinit
  have hlt := h.sbrk_lt
  have hpages := h.pages_le
  have hround : wrap (65536 + 7) / 8 * 8 = 65536 := by decide
  unfold sbrk
  simp only [initSbrk_of_initialized hinit, hround]
  rw [if_neg (by decide)]
  by_cases hthere : s.mgr.sbrkBytes < s.pages * 65536 ∨ s.pages = 65535
  · -- the page is there, or the sum of the bytes passes 2^32 and no page is missed
    have hdesired : ¬ diff (wrap (s.mgr.sbrkBytes + 65536 + 65536)) 1 / 65536 > s.pages := by
      unfold diff wrap
      omega
    rw [if_neg hdesired, if_pos hthere]
  · -- `sbrk_bytes` is the end of the memory, so one page is missing
    have hdesired : diff (wrap (s.mgr.sbrkBytes + 65536 + 65536)) 1 / 65536 = s.pages + 1 := by
      unfold diff wrap
      omega
    have hone : UInt32.ofNat (s.pages + 1 - s.pages) = 1 := by
      rw [Nat.add_sub_cancel_left]
      rfl
    rw [hdesired, if_pos (Nat.lt_succ_self _), if_neg hthere, hone]
    have hroom : s.pages + (1 : UInt32).toNat ≤ maxPages := by
      show s.pages + 1 ≤ 65536
      omega
    by_cases hgrant : host.grants s.grows = true
    · have hne := (growMemory_ne (n := 1) hpages).2 ⟨hgrant, hroom⟩
      rw [if_neg hne, if_pos hgrant]
      unfold growMemory
      rw [if_pos ⟨hgrant, hroom⟩]
      rfl
    · have heq : ¬ (growMemory s.pages 1 (host.grants s.grows)).1 ≠ -1 := by
        rw [growMemory_ne hpages]
        exact fun hboth => hgrant hboth.1
      rw [if_pos (not_not.1 heq), if_neg hgrant]
      unfold growMemory
      rw [if_neg fun hboth => hgrant hboth.1]
      rfl

/-- Memory that is there, or that ends the address space, is handed out. -/
lemma Backed.advance (h : s.Backed) (hinit : s.initialized = true)
    (hroom : s.mgr.sbrkBytes < s.pages * 65536 ∨ s.pages = 65535) : (s.advance 65536).Backed := by
  have hmod := h.sbrk_mod hinit
  have hle := h.sbrk_le hinit
  have hlt := h.sbrk_lt
  constructor
  case pages_le =>
    rw [advance_pages]
    exact h.pages_le
  case sbrk_lt =>
    rw [advance_sbrkBytes]
    omega
  case sbrk_mod =>
    intro _
    rw [advance_sbrkBytes]
    omega
  case sbrk_le =>
    intro _
    rw [advance_sbrkBytes, advance_pages]
    omega

lemma Backed.grown (h : s.Backed) (hpages : s.pages < 65536) : s.grown.Backed := by
  constructor
  case pages_le =>
    rw [grown_pages]
    omega
  case sbrk_lt => exact h.sbrk_lt
  case sbrk_mod => exact h.sbrk_mod
  case sbrk_le =>
    intro hinit
    rw [grown_initialized] at hinit
    have hle := h.sbrk_le hinit
    exact Nat.le_trans hle (Nat.mul_le_mul_right 65536 (Nat.le_succ s.pages))

lemma Backed.refused (h : s.Backed) : s.refused.Backed :=
  ⟨h.pages_le, h.sbrk_lt, h.sbrk_mod, h.sbrk_le⟩

/-- The heaps are not touched by a request for a page, which gives memory or fails. -/
structure Requested (s : Machine) (start : ℕ) (t : Machine) : Prop where
  backed : t.Backed
  availableHeaps_eq : t.mgr.availableHeaps = s.mgr.availableHeaps
  activeHeap_eq : t.mgr.activeHeap = s.mgr.activeHeap
  start_eq : start % 65536 = 0 ∧ t.failures = s.failures ∨ start = 2 ^ 32 - 1

lemma Backed.requested (h : s.Backed) (hinit : s.initialized = true) :
    s.Requested (s.sbrk host 65536).1 (s.sbrk host 65536).2 := by
  have hmod := h.sbrk_mod hinit
  have hle := h.sbrk_le hinit
  have hlt := h.sbrk_lt
  rw [h.sbrk_page host hinit]
  split
  · rename_i hthere
    exact ⟨h.advance hinit hthere, advance_availableHeaps _, advance_activeHeap _,
      .inl ⟨hmod, advance_failures _⟩⟩
  · rename_i hthere
    split
    · have hroom : s.grown.mgr.sbrkBytes < s.grown.pages * 65536 := by
        rw [grown_mgr, grown_pages]
        omega
      exact ⟨(h.grown (by omega)).advance hinit (.inl hroom), advance_availableHeaps _,
        advance_activeHeap _, .inl ⟨hmod, advance_failures _⟩⟩
    · exact ⟨h.refused, rfl, rfl, .inr rfl⟩

end Machine

/-! ## A new heap -/

namespace Heap

variable {h : Heap} {start adj : ℕ}

/-- The end does not depend on the offset. -/
lemma heapEnd_offset (h : Heap) (offset : ℕ) : { h with offset }.heapEnd = h.heapEnd := rfl

lemma expandMemory_of_eq (hend : h.heapEnd = start) :
    h.expandMemory start adj = some { h with heapSize := wrap (h.heapSize + adj) } :=
  if_neg (not_not.2 hend)

/-- What `memory::malloc` does: nothing, or a block at the offset. -/
lemma malloc_cases (h : Heap) (m : Mem) (size : ℕ) :
    h.malloc m size = none ∧ h.heapSize < wrap (wrap (h.offset + size) + sizeMarker) ∨
    wrap (wrap (h.offset + size) + sizeMarker) ≤ h.heapSize ∧ ∃ ptr,
      ptr = wrap (h.heap + wrap (h.offset + sizeMarker)) ∧
      h.malloc m size = some (ptr, { h with offset := wrap (h.offset + wrap (size + sizeMarker)) },
        markAlloc (writeSize m ptr size) ptr) := by
  by_cases hfull : wrap (wrap (h.offset + size) + sizeMarker) > h.heapSize
  · exact .inl ⟨if_pos hfull, hfull⟩
  · exact .inr ⟨not_lt.1 hfull, _, rfl, if_neg hfull⟩

lemma expandMemory_of_ne (hend : h.heapEnd ≠ start) : h.expandMemory start adj = none := if_pos hend

/-- The heap behind `realloc_in_place`: only the last block moves the offset. -/
structure Extends (h : Heap) (m : Mem) (ptr size : ℕ) (h' : Heap) : Prop where
  size_le : (bufferAt m ptr h.heapEnd).size ≤ size
  inside : wrap (ptr + (bufferAt m ptr h.heapEnd).size) ≤ h.heapEnd
  fits : ptr ≤ diff h.heapEnd size
  last : wrap (ptr + (bufferAt m ptr h.heapEnd).size) = wrap (h.heap + h.offset)
  heap_eq : h' =
    { h with offset := wrap (h.offset + diff size (bufferAt m ptr h.heapEnd).size) }

/-- What `realloc_in_place` leaves: the pointer or null, and the heap as it was or extended. -/
lemma reallocInPlace_cases {m : Mem} {ptr size : ℕ} {r : InPlace}
    (hr : h.reallocInPlace m ptr size = .ok r) :
    (r.ptr = none ∨ r.ptr = some ptr) ∧ (r.heap = h ∨ h.Extends m ptr size r.heap) := by
  simp only [reallocInPlace] at hr
  split at hr
  · cases hr
    exact ⟨.inl rfl, .inl rfl⟩
  · rename_i hinside
    split at hr
    · cases hr
      exact ⟨.inl rfl, .inl rfl⟩
    · rename_i hfits
      split at hr
      · cases hr
        exact ⟨.inr rfl, .inl rfl⟩
      · rename_i hsize
        split at hr
        · rename_i hlast
          cases hr
          exact ⟨.inr rfl,
            .inr ⟨not_lt.1 hsize, not_lt.1 hinside, not_lt.1 hfits, hlast, rfl⟩⟩
        · split at hr
          · cases hr
            exact ⟨.inr rfl, .inl rfl⟩
          · cases hmerge : mergeContiguous m (bufferAt m ptr h.heapEnd) size true with
            | error f =>
              rw [hmerge] at hr
              cases hr
            | ok b =>
              rw [hmerge] at hr
              change (if b.1 = true then _ else _) = _ at hr
              split at hr
              · cases hr
                exact ⟨.inr rfl, .inl rfl⟩
              · cases hr
                exact ⟨.inl rfl, .inl rfl⟩

end Heap

namespace Machine

variable {s : Machine} {mgr : Manager}

@[simp] lemma withMgr_mgr : (s.withMgr mgr).mgr = mgr := rfl

@[simp] lemma withMgr_pages : (s.withMgr mgr).pages = s.pages := rfl

@[simp] lemma withMgr_initialized : (s.withMgr mgr).initialized = s.initialized := rfl

@[simp] lemma withMgr_failures : (s.withMgr mgr).failures = s.failures := rfl

lemma Backed.withMgr (h : s.Backed) (hsbrk : mgr.sbrkBytes = s.mgr.sbrkBytes) :
    (s.withMgr mgr).Backed := by
  constructor
  case pages_le => exact h.pages_le
  case sbrk_lt =>
    rw [withMgr_mgr, hsbrk]
    exact h.sbrk_lt
  case sbrk_mod =>
    rw [withMgr_mgr, hsbrk]
    exact h.sbrk_mod
  case sbrk_le =>
    rw [withMgr_mgr, hsbrk]
    exact h.sbrk_le

end Machine

namespace Manager

/-- The active heap is retired, and the next one is initialised. -/
def nextHeap (s : Manager) (start adj : ℕ) : Manager :=
  s.retireActive.setHeap (s.activeHeap + 1)
    ((s.retireActive.availableHeaps (s.activeHeap + 1)).init start adj)

variable {s : Manager} {start adj i : ℕ} {h : Heap}

lemma setHeap_of_ne {j : ℕ} (hne : j ≠ i) : (s.setHeap i h).availableHeaps j = s.availableHeaps j :=
  if_neg hne

lemma setHeap_of_eq : (s.setHeap i h).availableHeaps i = h := if_pos rfl

@[simp] lemma setHeap_activeHeap : (s.setHeap i h).activeHeap = s.activeHeap := rfl

@[simp] lemma setHeap_sbrkBytes : (s.setHeap i h).sbrkBytes = s.sbrkBytes := rfl

@[simp] lemma setHeapMem_availableHeaps {m : Mem} :
    (s.setHeapMem i h m).availableHeaps = (s.setHeap i h).availableHeaps := rfl

@[simp] lemma setHeapMem_activeHeap {m : Mem} :
    (s.setHeapMem i h m).activeHeap = s.activeHeap := rfl

@[simp] lemma setHeapMem_sbrkBytes {m : Mem} : (s.setHeapMem i h m).sbrkBytes = s.sbrkBytes := rfl

@[simp] lemma setHeapMem_mem {m : Mem} : (s.setHeapMem i h m).mem = m := rfl

@[simp] lemma nextHeap_activeHeap : (s.nextHeap start adj).activeHeap = s.activeHeap + 1 := rfl

@[simp] lemma nextHeap_sbrkBytes : (s.nextHeap start adj).sbrkBytes = s.sbrkBytes := rfl

@[simp] lemma nextHeap_heapsActualSize :
    (s.nextHeap start adj).heapsActualSize = s.heapsActualSize := rfl

/-- The new heap was not used before. -/
lemma nextHeap_new (start adj : ℕ) (hrest : s.availableHeaps (s.activeHeap + 1) = .empty) :
    (s.nextHeap start adj).availableHeaps (s.activeHeap + 1) = ⟨adj, start, 0⟩ := by
  have hkeep : s.retireActive.availableHeaps (s.activeHeap + 1) = .empty := by
    rw [← hrest]
    exact if_neg (Nat.succ_ne_self _)
  unfold nextHeap
  rw [setHeap_of_eq, hkeep]
  rfl

/-- `cleanup_remaining` only moves the offset of the active heap. -/
lemma nextHeap_active (s : Manager) (start adj : ℕ) :
    (s.nextHeap start adj).availableHeaps s.activeHeap =
      { s.availableHeaps s.activeHeap with offset := (s.availableHeaps s.activeHeap).heapSize } := by
  have hne : s.activeHeap ≠ s.activeHeap + 1 := by omega
  have hretired : s.retireActive.availableHeaps s.activeHeap =
      ((s.availableHeaps s.activeHeap).cleanupRemaining s.mem).1 := if_pos rfl
  unfold nextHeap
  rw [setHeap_of_ne hne, hretired]
  unfold Heap.cleanupRemaining
  split
  · rename_i hfull
    rw [← hfull]
  · rfl

lemma nextHeap_other (hactive : i ≠ s.activeHeap) (hnext : i ≠ s.activeHeap + 1) :
    (s.nextHeap start adj).availableHeaps i = s.availableHeaps i := by
  unfold nextHeap
  rw [setHeap_of_ne hnext]
  exact if_neg hactive

end Manager

/-! ## The parts of `malloc` -/

namespace Wasm

variable {host : Host} {s : Machine} {Q : Option ℕ → Machine → Prop} {R : Unit → Machine → Prop}
variable {E : Halt → Machine → Prop} {size start adj current : ℕ}

lemma meets_sbrk {P : ℕ → Machine → Prop} {n : ℕ} :
    Meets (sbrk host n) s P E ↔ P (s.sbrk host n).1 (s.sbrk host n).2 := Iff.rfl

lemma meets_update {f : Manager → Manager} :
    Meets (update f) s R E ↔ R ⟨⟩ (s.withMgr (f s.mgr)) := Iff.rfl

lemma meets_access {a : ℕ} :
    Meets (access a) s R E ↔ if a + 4 ≤ s.pages * 65536 then R ⟨⟩ s else E .trap s := by
  unfold access
  rw [meets_bind, meets_get]
  split
  · exact Iff.rfl
  · exact Iff.rfl

/-- An access changes nothing. -/
lemma accessBytes_same (a n : ℕ) (s : Machine) :
    Ensures (accessBytes a n) s (fun _ t => t = s) := by
  unfold accessBytes Ensures
  rw [meets_bind, meets_get]
  split
  · exact rfl
  · trivial

/-- The size word of the rest of the active heap. -/
def restMarker (s : Machine) : ℕ :=
  let h := s.mgr.availableHeaps s.mgr.activeHeap
  marker (wrap (h.heap + wrap (h.offset + sizeMarker)))

lemma meets_retireActive :
    Meets retireActive s R E ↔
      if (s.mgr.availableHeaps s.mgr.activeHeap).offset =
          (s.mgr.availableHeaps s.mgr.activeHeap).heapSize ∨
          restMarker s + 4 ≤ s.pages * 65536 then
        R ⟨⟩ (s.withMgr s.mgr.retireActive)
      else E .trap s := by
  unfold retireActive
  rw [meets_bind, meets_get]
  by_cases hfull : (s.mgr.availableHeaps s.mgr.activeHeap).offset =
      (s.mgr.availableHeaps s.mgr.activeHeap).heapSize
  · simp only [hfull, ne_eq, not_true_eq_false, if_false, true_or, if_true]
    exact Iff.rfl
  · simp only [hfull, ne_eq, not_false_eq_true, if_true, false_or]
    rw [meets_bind, meets_access]
    exact Iff.rfl

/-- The new memory behind the active heap, or in a new one. The failure value is no exception: it is
not negative as an `int64_t`. -/
lemma meets_useMemory :
    Meets (useMemory start adj) s Q E ↔
      match (s.mgr.availableHeaps s.mgr.activeHeap).expandMemory start adj with
      | some h => Q (some s.mgr.activeHeap) (s.withMgr (s.mgr.setHeap s.mgr.activeHeap h))
      | none =>
        if (s.mgr.availableHeaps s.mgr.activeHeap).offset =
            (s.mgr.availableHeaps s.mgr.activeHeap).heapSize ∨
            restMarker s + 4 ≤ s.pages * 65536 then
          Q (some (s.mgr.activeHeap + 1)) (s.withMgr (s.mgr.nextHeap start adj))
        else E .trap s := by
  have hfailure : ¬ toInt64 start = -1 := by
    unfold toInt64
    omega
  unfold useMemory
  rw [if_neg hfailure, meets_bind, meets_get]
  cases (s.mgr.availableHeaps s.mgr.activeHeap).expandMemory start adj with
  | some h => exact Iff.rfl
  | none =>
    rw [meets_bind, meets_retireActive]
    exact Iff.rfl

/-- One page more. -/
lemma meets_nextActiveHeap (h : s.Backed) :
    Meets (nextActiveHeap host) s Q E ↔
      Meets (useMemory (s.initSbrk.sbrk host 65536).1 65536) (s.initSbrk.sbrk host 65536).2 Q E := by
  have hinit := s.initialized_initSbrk
  have hzero : s.sbrk host 0 = (s.initSbrk.mgr.sbrkBytes, s.initSbrk) := by
    -- the second call of `initSbrk` does nothing
    have hsame := h.initSbrk.sbrk_zero host hinit
    rw [← hsame]
    unfold Machine.sbrk
    rw [Machine.initSbrk_of_initialized hinit]
  have hnonneg : ¬ ((s.initSbrk.mgr.sbrkBytes : ℕ) : ℤ) < 0 := by
    omega
  have hadj : Manager.heapAdj s.initSbrk.mgr.sbrkBytes = 65536 := by
    have hmod := h.initSbrk.sbrk_mod hinit
    have hlt := h.initSbrk.sbrk_lt
    unfold Manager.heapAdj diff wrap wasmPageSize
    rw [if_pos (by omega)]
    omega
  unfold nextActiveHeap
  rw [meets_bind, meets_sbrk, hzero]
  simp only [if_neg hnonneg, hadj]
  rw [meets_bind, meets_sbrk]

/-- `current->malloc(size)` traps where the size word is outside the memory. -/
lemma meets_heapMalloc :
    Meets (heapMalloc current size) s Q E ↔
      match (s.mgr.availableHeaps current).malloc s.mgr.mem size with
      | none => Q none s
      | some (buffer, h, mem) => if marker buffer + 4 ≤ s.pages * 65536 then
          Q (some buffer) (s.withMgr (s.mgr.setHeapMem current h mem))
        else E .trap s := by
  unfold heapMalloc
  rw [meets_bind, meets_get]
  cases (s.mgr.availableHeaps current).malloc s.mgr.mem size with
  | none => exact Iff.rfl
  | some r =>
    show Meets (access (marker r.1) >>= _) s Q E ↔ _
    rw [meets_bind, meets_access]
    exact Iff.rfl

lemma meets_free {p : ℕ} :
    Meets (free p) s R E ↔
      if p ≠ 0 ∧ (s.mgr.findHeap p).isSome → marker p + 4 ≤ s.pages * 65536 then
        R ⟨⟩ (s.withMgr (s.mgr.free p))
      else E .trap s := by
  unfold free
  rw [meets_bind, meets_get]
  by_cases hfound : p ≠ 0 ∧ (s.mgr.findHeap p).isSome
  · rw [if_pos hfound, meets_bind, meets_access]
    by_cases hin : marker p + 4 ≤ s.pages * 65536
    · rw [if_pos hin, if_pos fun _ => hin]
      exact Iff.rfl
    · rw [if_neg hin, if_neg fun hall => hin (hall hfound)]
  · rw [if_neg hfound, if_pos fun hin => absurd hin hfound]
    exact Iff.rfl

lemma meets_reallocInPlace {p : ℕ} {P : Option ℕ × ℕ → Machine → Prop} :
    Meets (reallocInPlace p size) s P E ↔
      match if p ≠ 0 then s.mgr.findHeap p else none with
      | none => P (none, 0) s
      | some i =>
        if marker p + 4 ≤ s.pages * 65536 then
          match (s.mgr.availableHeaps i).reallocInPlace s.mgr.mem p size with
          | .ok r => P (r.ptr, r.origPtrSize) (s.withMgr (s.mgr.setHeapMem i r.heap r.mem))
          | .error f => E (.fault f) s
        else E .trap s := by
  unfold reallocInPlace
  rw [meets_bind, meets_get]
  cases (if p ≠ 0 then s.mgr.findHeap p else none) with
  | none => exact Iff.rfl
  | some i =>
    show Meets (access (marker p) >>= _) s P E ↔ _
    rw [meets_bind, meets_access]
    dsimp only
    split
    · cases (s.mgr.availableHeaps i).reallocInPlace s.mgr.mem p size with
      | ok r => exact Iff.rfl
      | error f => exact Iff.rfl
    · exact Iff.rfl

lemma meets_activeLoop {fuel : ℕ} :
    Meets (activeLoop host size (fuel + 1) (some current)) s Q E ↔
      Meets (heapMalloc current size) s (fun r t => match r with
        | some buffer => Q (some buffer) t
        | none => Meets (nextActiveHeap host) t
            (fun next u => Meets (activeLoop host size fuel next) u Q E) E) E := by
  rw [activeLoop, meets_bind]
  apply iff_of_eq
  congr 1
  funext r t
  cases r with
  | some buffer => rfl
  | none =>
    apply propext
    exact meets_bind

end Wasm

/-! ## Descriptors -/

namespace Manager

variable {s : Manager} {i : ℕ}

/-- `free` changes bytes only. -/
lemma free_fields (s : Manager) (p : ℕ) :
    (s.free p).sbrkBytes = s.sbrkBytes ∧ (s.free p).activeHeap = s.activeHeap ∧
      (s.free p).availableHeaps = s.availableHeaps ∧
      (s.free p).heapsActualSize = s.heapsActualSize := by
  unfold free
  split
  · exact ⟨rfl, rfl, rfl, rfl⟩
  · split
    · exact ⟨rfl, rfl, rfl, rfl⟩
    · exact ⟨rfl, rfl, rfl, rfl⟩

/-- `prepare` may initialise the initial heap, and nothing else matters. -/
lemma prepare_fields (s : Manager) (env : Env) :
    (s.prepare env).2.sbrkBytes = s.sbrkBytes ∧ (s.prepare env).2.activeHeap = s.activeHeap ∧
      ((s.prepare env).1 = none ∨ (s.prepare env).1 = some s.activeHeap) ∧
      ((s.prepare env).2.availableHeaps = s.availableHeaps ∨
        (s.prepare env).2.availableHeaps = (s.setHeap 0
          ((s.availableHeaps 0).init env.initialHeap initialHeapSize)).availableHeaps) := by
  -- both branches go on with the same test of the active heap
  have hset : ∀ u : Manager, u.sbrkBytes = s.sbrkBytes → u.activeHeap = s.activeHeap →
      u.availableHeaps = s.availableHeaps → ∀ r : Option ℕ × Manager,
      r = (if u.activeHeap < u.heapsActualSize then
        if u.activeHeap = 0 ∧ ¬ (u.availableHeaps u.activeHeap).isInit then
          (some u.activeHeap, u.setHeap u.activeHeap
            ((u.availableHeaps u.activeHeap).init env.initialHeap initialHeapSize))
        else (some u.activeHeap, u)
      else (none, u)) →
      r.2.sbrkBytes = s.sbrkBytes ∧ r.2.activeHeap = s.activeHeap ∧
        (r.1 = none ∨ r.1 = some s.activeHeap) ∧
        (r.2.availableHeaps = s.availableHeaps ∨ r.2.availableHeaps = (s.setHeap 0
          ((s.availableHeaps 0).init env.initialHeap initialHeapSize)).availableHeaps) := by
    intro u hsbrk hactive hheaps r hr
    split at hr
    · split at hr
      · rename_i hfirst
        subst hr
        refine ⟨hsbrk, hactive, .inr (congrArg some hactive), .inr ?_⟩
        unfold setHeap
        rw [hfirst.1, hheaps]
      · subst hr
        exact ⟨hsbrk, hactive, .inr (congrArg some hactive), .inl hheaps⟩
    · subst hr
      exact ⟨hsbrk, hactive, .inl rfl, .inl hheaps⟩
  unfold prepare
  split
  · exact hset { s with heapsActualSize := heapsSize } rfl rfl rfl _ rfl
  · exact hset s rfl rfl rfl _ rfl

/-- The search of the freed blocks changes no descriptor. -/
lemma freedHeapsLoop_fields {size endFreeHeap fuel : ℕ} {r : Option ℕ × Manager}
    (hloop : freedHeapsLoop size endFreeHeap fuel s = .ok r) :
    r.2.availableHeaps = s.availableHeaps ∧ r.2.activeHeap = s.activeHeap ∧
      r.2.sbrkBytes = s.sbrkBytes := by
  induction fuel generalizing s with
  | zero => cases hloop
  | succ fuel ih =>
    rw [freedHeapsLoop] at hloop
    cases hfreed : (s.availableHeaps s.activeFreeHeap).mallocFromFreed s.mem size with
    | error f =>
      rw [hfreed] at hloop
      cases hloop
    | ok b =>
      rw [hfreed] at hloop
      change (if b.1.isSome then _ else _) = _ at hloop
      split at hloop
      · cases hloop
        exact ⟨rfl, rfl, rfl⟩
      · -- either the next heap is searched or all were
        have hnext : ∀ u : Manager, u.availableHeaps = s.availableHeaps →
            u.activeHeap = s.activeHeap → u.sbrkBytes = s.sbrkBytes →
            (if u.activeFreeHeap ≠ endFreeHeap then freedHeapsLoop size endFreeHeap fuel u
              else .ok (none, u)) = .ok r →
            r.2.availableHeaps = s.availableHeaps ∧ r.2.activeHeap = s.activeHeap ∧
              r.2.sbrkBytes = s.sbrkBytes := by
          intro u hheaps hactive hsbrk hu
          rw [← hheaps, ← hactive, ← hsbrk]
          split at hu
          · exact ih hu
          · cases hu
            exact ⟨rfl, rfl, rfl⟩
        exact hnext { s with
          mem := b.2
          activeFreeHeap := if s.activeFreeHeap + 1 = s.heapsActualSize then 0
            else s.activeFreeHeap + 1 } rfl rfl rfl hloop

/-- The heap of a pointer is initialised and holds it. -/
lemma findHeap_spec {p : ℕ} (hfind : s.findHeap p = some i) :
    (s.availableHeaps i).isInit = true ∧ (s.availableHeaps i).isInHeap p = true := by
  have hmem := List.mem_of_find?_eq_some hfind
  have hin := List.find?_some hfind
  have hall := List.all_takeWhile (p := fun i => (s.availableHeaps i).isInit)
    (l := List.range s.heapsActualSize)
  rw [List.all_eq_true] at hall
  exact ⟨hall i hmem, hin⟩

end Manager

/-! ## Machines without a failure -/

namespace Machine

variable {host : Host} {s t : Machine}

/-- No descriptor ends at the failure value, and those behind the active heap are unused. -/
structure Sane (s : Machine) : Prop extends Backed s where
  ends : ∀ i, (s.mgr.availableHeaps i).heapEnd ≠ 2 ^ 32 - 1
  rest : ∀ i, s.mgr.activeHeap < i → s.mgr.availableHeaps i = .empty

/-- The active heap was initialised from the failure value. -/
structure Poisoned (s : Machine) : Prop extends Backed s where
  active : s.mgr.availableHeaps s.mgr.activeHeap = ⟨65536, 2 ^ 32 - 1, 0⟩

lemma Sane.of_backed (h : s.Sane) (hb : t.Backed)
    (hheaps : t.mgr.availableHeaps = s.mgr.availableHeaps)
    (hactive : t.mgr.activeHeap = s.mgr.activeHeap) : t.Sane where
  toBacked := hb
  ends := by
    rw [hheaps]
    exact h.ends
  rest := by
    rw [hheaps, hactive]
    exact h.rest

lemma Sane.initSbrk (h : s.Sane) : s.initSbrk.Sane := by
  apply h.of_backed h.toBacked.initSbrk
  · exact mgr_initSbrk_availableHeaps s
  · exact mgr_initSbrk_activeHeap s

/-- A descriptor changes. -/
lemma Sane.setHeap (h : s.Sane) {i : ℕ} {d : Heap} (hi : i ≤ s.mgr.activeHeap)
    (hend : d.heapEnd ≠ 2 ^ 32 - 1) {mgr : Manager} (hsbrk : mgr.sbrkBytes = s.mgr.sbrkBytes)
    (hactive : mgr.activeHeap = s.mgr.activeHeap)
    (hheaps : mgr.availableHeaps = (s.mgr.setHeap i d).availableHeaps) : (s.withMgr mgr).Sane where
  toBacked := h.toBacked.withMgr hsbrk
  ends j := by
    rw [withMgr_mgr, hheaps]
    by_cases hj : j = i
    · rw [hj, Manager.setHeap_of_eq]
      exact hend
    · rw [Manager.setHeap_of_ne hj]
      exact h.ends j
  rest j hj := by
    rw [withMgr_mgr, hactive] at hj
    rw [withMgr_mgr, hheaps, Manager.setHeap_of_ne (by omega)]
    exact h.rest j hj

/-- New memory keeps a machine sane, behind the active heap and in a new one. -/
lemma Sane.useMemory (h : s.Sane) {start : ℕ} (hmod : start % 65536 = 0) :
    Ensures (Wasm.useMemory start 65536) s (fun r t => r = some t.mgr.activeHeap ∧ t.Sane ∧
      t.failures = s.failures) := by
  unfold Ensures
  rw [Wasm.meets_useMemory]
  -- the ends are multiples of a page, which the failure value is not
  by_cases hend : (s.mgr.availableHeaps s.mgr.activeHeap).heapEnd = start
  · rw [Heap.expandMemory_of_eq hend]
    refine ⟨rfl, h.setHeap le_rfl ?_ rfl rfl rfl, rfl⟩
    unfold Heap.heapEnd wrap at hend ⊢
    simp only
    omega
  · rw [Heap.expandMemory_of_ne hend]
    dsimp only
    split
    · refine ⟨rfl, ⟨h.toBacked.withMgr rfl, ?_, ?_⟩, rfl⟩
      · intro i
        rw [withMgr_mgr]
        by_cases hnext : i = s.mgr.activeHeap + 1
        · rw [hnext, Manager.nextHeap_new _ _ (h.rest _ (Nat.lt_succ_self _))]
          unfold Heap.heapEnd wrap
          simp only
          omega
        · by_cases hi : i = s.mgr.activeHeap
          · rw [hi, Manager.nextHeap_active]
            exact h.ends _
          · rw [Manager.nextHeap_other hi hnext]
            exact h.ends i
      · intro i hi
        rw [withMgr_mgr, Manager.nextHeap_activeHeap] at hi
        rw [withMgr_mgr, Manager.nextHeap_other (by omega) (by omega)]
        exact h.rest i (by omega)
    · trivial

/-- A heap at the failure value. -/
lemma Sane.useMemory_failed (h : s.Sane) :
    Ensures (Wasm.useMemory (2 ^ 32 - 1) 65536) s
      (fun r t => r = some t.mgr.activeHeap ∧ t.Poisoned) := by
  unfold Ensures
  rw [Wasm.meets_useMemory, Heap.expandMemory_of_ne (h.ends _)]
  dsimp only
  split
  · refine ⟨rfl, h.toBacked.withMgr rfl, ?_⟩
    rw [withMgr_mgr, Manager.nextHeap_activeHeap]
    exact Manager.nextHeap_new _ _ (h.rest _ (Nat.lt_succ_self _))
  · trivial

/-- The rule for `next_active_heap`: what holds behind every request for a page. -/
lemma Backed.nextActiveHeap (h : s.Backed) {Q : Option ℕ → Machine → Prop}
    {E : Halt → Machine → Prop}
    (huse : ∀ start t, s.initSbrk.Requested start t → Meets (Wasm.useMemory start 65536) t Q E) :
    Meets (Wasm.nextActiveHeap host) s Q E := by
  rw [Wasm.meets_nextActiveHeap h]
  exact huse _ _ (h.initSbrk.requested s.initialized_initSbrk)

/-- One page more, or a heap at the failure value. -/
lemma Sane.nextActiveHeap (h : s.Sane) :
    Ensures (Wasm.nextActiveHeap host) s (fun r t => r = some t.mgr.activeHeap ∧
      (t.Sane ∧ t.failures = s.failures ∨ t.Poisoned)) := by
  apply h.toBacked.nextActiveHeap
  intro start u hreq
  have hu : u.Sane := h.initSbrk.of_backed hreq.backed hreq.availableHeaps_eq hreq.activeHeap_eq
  rcases hreq.start_eq with ⟨hmod, hfailures⟩ | rfl
  · apply (hu.useMemory hmod).mono
    rintro r t ⟨hr, ht, hsame⟩
    rw [failures_initSbrk] at hfailures
    exact ⟨hr, .inl ⟨ht, hsame.trans hfailures⟩⟩
  · apply hu.useMemory_failed.mono
    exact fun r t ht => ⟨ht.1, .inr ht.2⟩

/-- Nothing fits in a heap at the failure value without a trap. -/
lemma Poisoned.heapMalloc (h : s.Poisoned) {size : ℕ} :
    Ensures (Wasm.heapMalloc s.mgr.activeHeap size) s (fun r t => r = none ∧ t = s) := by
  have hpages := h.pages_le
  unfold Ensures
  rw [Wasm.meets_heapMalloc, h.active]
  rcases Heap.malloc_cases ⟨65536, 2 ^ 32 - 1, 0⟩ s.mgr.mem size with
    ⟨hnone, -⟩ | ⟨-, ptr, rfl, hsome⟩
  · rw [hnone]
    exact ⟨rfl, rfl⟩
  · rw [hsome]
    -- the block would be at address 3, with its size word at 2^32 - 1
    have htrap : ¬ marker (wrap (2 ^ 32 - 1 + wrap (0 + sizeMarker))) + 4 ≤ s.pages * 65536 := by
      unfold marker diff wrap sizeMarker
      omega
    dsimp only
    rw [if_neg htrap]
    trivial

/-- The heap at the failure value cannot be retired. -/
lemma Poisoned.useMemory {start : ℕ} (h : s.Poisoned)
    (hstart : start % 65536 = 0 ∨ start = 2 ^ 32 - 1) :
    Ensures (Wasm.useMemory start 65536) s (fun _ _ => False) := by
  have hend : (s.mgr.availableHeaps s.mgr.activeHeap).heapEnd ≠ start := by
    rw [h.active]
    unfold Heap.heapEnd wrap
    simp only
    omega
  have hpages := h.pages_le
  -- to be retired, the heap is given the size word of its rest, at 2^32 - 1
  have htrap : ¬ Wasm.restMarker s + 4 ≤ s.pages * 65536 := by
    unfold Wasm.restMarker
    simp only [h.active]
    unfold marker diff wrap sizeMarker
    omega
  unfold Ensures
  rw [Wasm.meets_useMemory, Heap.expandMemory_of_ne hend]
  dsimp only
  rw [h.active, if_neg]
  · trivial
  · rintro (hfull | hin)
    · exact absurd hfull (by decide)
    · exact htrap hin

lemma Poisoned.nextActiveHeap (h : s.Poisoned) :
    Ensures (Wasm.nextActiveHeap host) s (fun _ _ => False) := by
  apply h.toBacked.nextActiveHeap
  intro start u hreq
  have hu : u.Poisoned := by
    refine ⟨hreq.backed, ?_⟩
    rw [hreq.availableHeaps_eq, hreq.activeHeap_eq, mgr_initSbrk_availableHeaps,
      mgr_initSbrk_activeHeap]
    exact h.active
  exact hu.useMemory (hreq.start_eq.imp And.left id)

/-- Once a heap is at the failure value, `malloc` does not return. -/
lemma Poisoned.activeLoop (h : s.Poisoned) (size fuel : ℕ) :
    Ensures (Wasm.activeLoop host size fuel (some s.mgr.activeHeap)) s (fun _ _ => False) := by
  cases fuel with
  | zero => trivial
  | succ fuel =>
    unfold Ensures
    rw [Wasm.meets_activeLoop]
    apply h.heapMalloc.mono
    rintro r t ⟨rfl, rfl⟩
    exact h.nextActiveHeap.mono fun _ _ hfalse => hfalse.elim

lemma Sane.heapMalloc (h : s.Sane) {size : ℕ} :
    Ensures (Wasm.heapMalloc s.mgr.activeHeap size) s (fun _ t => t.Sane ∧
      t.failures = s.failures ∧ t.mgr.activeHeap = s.mgr.activeHeap) := by
  unfold Ensures
  rw [Wasm.meets_heapMalloc]
  rcases Heap.malloc_cases (s.mgr.availableHeaps s.mgr.activeHeap) s.mgr.mem size with
    ⟨hnone, -⟩ | ⟨-, ptr, -, hsome⟩
  · rw [hnone]
    exact ⟨h, rfl, rfl⟩
  · rw [hsome]
    dsimp only
    split
    · refine ⟨h.setHeap le_rfl ?_ Manager.setHeapMem_sbrkBytes Manager.setHeapMem_activeHeap
        Manager.setHeapMem_availableHeaps, withMgr_failures, Manager.setHeapMem_activeHeap⟩
      rw [Heap.heapEnd_offset]
      exact h.ends s.mgr.activeHeap
    · trivial

/-- A loop that returns has seen no failure. -/
lemma Sane.activeLoop (h : s.Sane) (size fuel : ℕ) :
    Ensures (Wasm.activeLoop host size fuel (some s.mgr.activeHeap)) s
      (fun _ t => t.Sane ∧ t.failures = s.failures) := by
  induction fuel generalizing s with
  | zero => trivial
  | succ fuel ih =>
    unfold Ensures
    rw [Wasm.meets_activeLoop]
    apply h.heapMalloc.mono
    rintro r t ⟨ht, hfailures, hactive⟩
    cases r with
    | some buffer => exact ⟨ht, hfailures⟩
    | none =>
      apply ht.nextActiveHeap.mono
      -- a round ends sane, or at a failure value, behind which nothing returns
      rintro next u ⟨rfl, ⟨hu, hsame⟩ | hu⟩
      · apply (ih hu).mono
        rintro r v ⟨hv, hlast⟩
        exact ⟨hv, hlast.trans (hsame.trans hfailures)⟩
      · exact (hu.activeLoop size fuel).mono fun _ _ hfalse => hfalse.elim

/-- The first call initialises the initial heap, which does not end at the failure value. -/
lemma Sane.prepare (hok : host.Ok) (h : s.Sane) :
    (s.withMgr (s.mgr.prepare host.env).2).Sane ∧
      ((s.mgr.prepare host.env).1 = none ∨
        (s.mgr.prepare host.env).1 = some (s.mgr.prepare host.env).2.activeHeap) := by
  obtain ⟨hsbrk, hactive, hcurrent, hheaps⟩ := s.mgr.prepare_fields host.env
  rw [hactive]
  refine ⟨?_, hcurrent⟩
  rcases hheaps with hheaps | hheaps
  · exact h.of_backed (h.toBacked.withMgr hsbrk) hheaps hactive
  · refine h.setHeap (Nat.zero_le _) ?_ hsbrk hactive hheaps
    have hinside := hok.inside
    have hpages := hok.pages_le
    unfold sizeofMemoryManager initialHeapSize heapsSize at hinside
    unfold maxPages at hpages
    show wrap (host.initialHeap + 8192) ≠ 2 ^ 32 - 1
    unfold wrap
    omega

lemma Sane.freedHeaps (h : s.Sane) (size : ℕ) :
    Ensures (Wasm.freedHeaps size) s (fun _ t => t.Sane ∧ t.failures = s.failures) := by
  unfold Wasm.freedHeaps Ensures
  rw [meets_bind, meets_get]
  cases hloop : Manager.freedHeapsLoop size s.mgr.activeFreeHeap loopBound s.mgr with
  | error f => trivial
  | ok r =>
    obtain ⟨hheaps, hactive, hsbrk⟩ := Manager.freedHeapsLoop_fields hloop
    exact ⟨h.of_backed (h.toBacked.withMgr hsbrk) hheaps hactive, rfl⟩

/-- A `malloc` that returns has seen no failure. -/
lemma Sane.malloc (hok : host.Ok) (h : s.Sane) (size : ℕ) :
    Ensures (Wasm.malloc host size) s (fun _ t => t.Sane ∧ t.failures = s.failures) := by
  unfold Wasm.malloc
  split
  · exact ⟨h, rfl⟩
  · obtain ⟨hprepared, hcurrent⟩ := h.prepare hok
    have hloop : Ensures (Wasm.activeLoop host (Manager.adjustToMemBlock size) loopBound
        (s.mgr.prepare host.env).1) (s.withMgr (s.mgr.prepare host.env).2)
        (fun _ t => t.Sane ∧ t.failures = s.failures) := by
      rcases hcurrent with hnone | hsome
      · rw [hnone]
        exact ⟨hprepared, rfl⟩
      · rw [hsome]
        exact hprepared.activeLoop _ _
    unfold Ensures
    rw [meets_bind]
    apply Meets.bind hloop
    rintro r t ⟨ht, hfailures⟩
    cases r with
    | some buffer => exact ⟨ht, hfailures⟩
    | none =>
      apply (ht.freedHeaps _).mono
      exact fun _ _ hu => ⟨hu.1, hu.2.trans hfailures⟩

/-! ## Runs -/

/-- The memory changes. -/
lemma Sane.withMem (h : s.Sane) {mgr : Manager} (hsbrk : mgr.sbrkBytes = s.mgr.sbrkBytes)
    (hheaps : mgr.availableHeaps = s.mgr.availableHeaps)
    (hactive : mgr.activeHeap = s.mgr.activeHeap) : (s.withMgr mgr).Sane :=
  h.of_backed (h.toBacked.withMgr hsbrk) hheaps hactive

lemma Sane.calloc (hok : host.Ok) (h : s.Sane) (count size : ℕ) :
    Ensures (Wasm.calloc host count size) s (fun _ t => t.Sane) := by
  unfold Wasm.calloc
  apply (h.malloc hok _).bind
  rintro r t ⟨ht, -⟩
  apply (Wasm.accessBytes_same _ _ t).bind
  rintro _ u rfl
  exact ht.withMem rfl rfl rfl

lemma Sane.free (h : s.Sane) (p : ℕ) :
    Ensures (Wasm.free p) s (fun _ t => t.Sane) := by
  obtain ⟨hsbrk, hactive, hheaps, -⟩ := s.mgr.free_fields p
  unfold Ensures
  rw [Wasm.meets_free]
  split
  · exact h.withMem hsbrk hheaps hactive
  · trivial

/-- A heap that is initialised is not behind the active one. -/
lemma Sane.le_active (h : s.Sane) {i : ℕ} (hinit : (s.mgr.availableHeaps i).isInit = true) :
    i ≤ s.mgr.activeHeap := by
  by_contra hlt
  rw [h.rest i (not_le.1 hlt)] at hinit
  exact absurd hinit (by decide)

lemma Sane.reallocInPlace (h : s.Sane) (p size : ℕ) :
    Ensures (Wasm.reallocInPlace p size) s (fun _ t => t.Sane) := by
  unfold Ensures
  rw [Wasm.meets_reallocInPlace]
  split
  · exact h
  · rename_i i hfind
    split
    · split
      · rename_i r hr
        have hinit : (s.mgr.availableHeaps i).isInit = true := by
          split at hfind
          · exact (Manager.findHeap_spec hfind).1
          · cases hfind
        have hend : r.heap.heapEnd ≠ 2 ^ 32 - 1 := by
          rcases (Heap.reallocInPlace_cases hr).2 with hsame | hext
          · rw [hsame]
            exact h.ends i
          · rw [hext.heap_eq, Heap.heapEnd_offset]
            exact h.ends i
        exact h.setHeap (h.le_active hinit) hend Manager.setHeapMem_sbrkBytes
          Manager.setHeapMem_activeHeap Manager.setHeapMem_availableHeaps
      · trivial
    · trivial

lemma Sane.copyBlock (h : s.Sane) (newAlloc p n : ℕ) :
    Ensures (Wasm.copyBlock newAlloc p n) s (fun _ t => t.Sane) := by
  unfold Wasm.copyBlock
  split
  · apply (Wasm.accessBytes_same newAlloc n s).bind
    rintro _ t rfl
    apply (Wasm.accessBytes_same p n t).bind
    rintro _ u rfl
    have hcopied : (u.withMgr { u.mgr with mem := memcpy u.mgr.mem newAlloc p n }).Sane :=
      h.withMem rfl rfl rfl
    unfold Ensures
    rw [meets_bind]
    exact hcopied.free p
  · exact h

lemma Sane.realloc (hok : host.Ok) (h : s.Sane) (p size : ℕ) :
    Ensures (Wasm.realloc host p size) s (fun _ t => t.Sane) := by
  unfold Wasm.realloc
  split
  · unfold Ensures
    rw [meets_bind]
    exact h.free p
  · apply (h.reallocInPlace _ _).bind
    rintro ⟨reallocPtr, origPtrSize⟩ t ht
    dsimp only
    split
    · exact ht
    · apply (ht.malloc hok _).bind
      rintro r u ⟨hu, -⟩
      cases r with
      | none => exact hu
      | some newAlloc =>
        apply (hu.copyBlock _ _ _).bind
        exact fun _ _ hv => hv

lemma Sane.start (hok : host.Ok) : host.start.Sane := by
  have hpages := hok.pages_le
  refine ⟨⟨hpages, ?_, ?_, ?_⟩, ?_, ?_⟩
  · exact Nat.two_pow_pos 32
  · exact fun _ => rfl
  · exact fun _ => Nat.zero_le _
  · intro i
    show wrap (0 + 0) ≠ 2 ^ 32 - 1
    decide
  · exact fun _ _ => rfl

end Machine

namespace WasmRun

variable {host : Host} {s t : WasmRun} {op : WasmOp} {ops : List WasmOp}

/-- What a program that returns gives. -/
lemma of_returns {α : Type} {x : Wasm α} {m m' : Machine} {a : α} {Q : α → Machine → Prop}
    (h : Ensures x m Q) (hret : x.returns m = some (a, m')) : Q a m' := by
  unfold Wasm.returns at hret
  cases hx : x m with
  | ok b u =>
    rw [hx] at hret
    cases hret
    exact h.of_ok hx
  | error e u =>
    rw [hx] at hret
    cases hret

lemma machine_gave {n : ℕ} {r : Option ℕ} {m : Machine} : (s.gave n r m).machine = m := by
  cases r <;> rfl

/-- Every step keeps the machine sane. -/
lemma sane_step (hok : host.Ok) (h : s.machine.Sane) (hstep : s.step host op = some t) :
    t.machine.Sane := by
  cases op with
  | malloc n =>
    obtain ⟨⟨r, m⟩, hret, heq⟩ := Option.bind_eq_some_iff.1 hstep
    cases heq
    rw [machine_gave]
    exact (of_returns (h.malloc hok _) hret).1
  | calloc count size =>
    obtain ⟨⟨r, m⟩, hret, heq⟩ := Option.bind_eq_some_iff.1 hstep
    cases heq
    rw [machine_gave]
    exact of_returns (h.calloc hok _ _) hret
  | free p =>
    obtain ⟨⟨r, m⟩, hret, heq⟩ := Option.bind_eq_some_iff.1 hstep
    cases heq
    exact of_returns (h.free p) hret
  | realloc p n =>
    obtain ⟨⟨r, m⟩, hret, heq⟩ := Option.bind_eq_some_iff.1 hstep
    have hm := of_returns (h.realloc hok _ _) hret
    dsimp only at heq
    split at heq
    · cases heq
      rw [machine_gave]
      exact hm
    · cases heq
      exact hm
  | write x v =>
    cases hstep
    exact h.withMem rfl rfl rfl

lemma sane_run (hok : host.Ok) (h : s.machine.Sane) (hrun : s.run host ops = some t) :
    t.machine.Sane :=
  Runs.keeps_run (I := fun s : WasmRun => s.machine.Sane) h
    (Runs.along_of_forall (P := fun _ _ => True) fun _ _ => trivial)
    (fun _ _ _ hs _ hstep => sane_step hok hs hstep) hrun

/-- `malloc` does not return when `sbrk` fails. -/
lemma not_intact_of_sane (hok : host.Ok) (h : s.machine.Sane) {n : ℕ}
    (hfail : (Wasm.malloc host n).Fails s.machine) : ¬ s.Intact host n := by
  rintro ⟨r, t, hret, -⟩
  -- a call that returns has counted no failure
  have ht := (h.malloc hok n).of_ok hret
  unfold Wasm.Fails at hfail
  rw [hret] at hfail
  have hlt : s.machine.failures < t.failures := hfail
  omega

/-- A `malloc` during which `sbrk` fails does not leave the heap intact, in any state that a program
reaches. -/
theorem not_intact_of_fails (host : Host) (hok : host.Ok) (ops : List WasmOp) (s : WasmRun)
    (hrun : (start host).run host ops = some s) (n : UInt32)
    (hfail : (Wasm.malloc host n.toNat).Fails s.machine) : ¬ s.Intact host n.toNat :=
  not_intact_of_sane hok (sane_run hok (Machine.Sane.start hok) hrun) hfail

/-- A host that grants no page. -/
def tightHost : Host := ⟨1024, 1, fun _ => false⟩

lemma tightHost_ok : tightHost.Ok := ⟨by decide, by decide, by decide⟩

/-- A request that does not fit in the initial heap. -/
lemma tightHost_fails :
    (Wasm.malloc tightHost (9000 : UInt32).toNat).Fails (start tightHost).machine := by
  unfold Wasm.Fails
  decide

theorem not_intact_of_fails_tight : ¬ (start tightHost).Intact tightHost (9000 : UInt32).toNat :=
  not_intact_of_fails tightHost tightHost_ok [] _ rfl 9000 tightHost_fails

/-- The first `malloc` asks for more than the initial heap, and no page is granted. -/
theorem exists_not_intact :
    ∃ (host : Host) (ops : List WasmOp) (s : WasmRun) (n : UInt32), host.Ok ∧
      (start host).run host ops = some s ∧ (Wasm.malloc host n.toNat).Fails s.machine ∧
      ¬ s.Intact host n.toNat :=
  ⟨tightHost, [], start tightHost, 9000, tightHost_ok, rfl, tightHost_fails,
    not_intact_of_sane tightHost_ok (Machine.Sane.start tightHost_ok) tightHost_fails⟩

end WasmRun

end UosioCdt.Malloc
