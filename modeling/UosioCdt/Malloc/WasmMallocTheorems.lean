import UosioCdt.Malloc.Ready
import UosioCdt.Malloc.WasmMalloc

/-!
# Theorems: `malloc` and `calloc` on wasm32

`malloc` honours a request up to 2^31 - 4 bytes that the heaps and the host can meet. `calloc` does
not look at the product of its arguments, which wraps.
-/

namespace UosioCdt.Malloc

open Aborting

namespace Machine

variable {host : Host} {s t : Machine} {size : ℕ}

/-! ## The whole call -/

/-- The heaps, before the first `malloc` or behind it. -/
def Layout (host : Host) (s : Machine) : Prop := s.Fresh host ∨ s.Running host

/-- What `prepare` leaves: the heaps of `s`, in use. -/
structure Ready (host : Host) (s t : Machine) : Prop where
  running : t.Running host
  pages_eq : t.pages = s.pages
  grows_eq : t.grows = s.grows
  wanted_eq : ∀ size, t.wanted size = s.wanted size
  keeps : ∀ p, s.Holds p → t.Holds p

/-- The first `malloc` initialises the initial heap. -/
lemma Fresh.prepare (h : s.Fresh host) :
    s.mgr.prepare host.env = (some 0, { s.mgr with heapsActualSize := heapsSize }.setHeap 0
      ⟨initialHeapSize, host.initialHeap, 0⟩) := by
  have hempty : Heap.empty.isInit = false := by decide
  unfold Manager.prepare
  rw [if_pos h.actual]
  dsimp only
  rw [h.active, h.unused, if_pos (by decide), if_pos ⟨rfl, by rw [hempty]; decide⟩]
  rfl

lemma Fresh.ready (h : s.Fresh host) :
    s.Ready host (s.withMgr ({ s.mgr with heapsActualSize := heapsSize }.setHeap 0
      ⟨initialHeapSize, host.initialHeap, 0⟩)) := by
  have hactive : (s.withMgr ({ s.mgr with heapsActualSize := heapsSize }.setHeap 0
      ⟨initialHeapSize, host.initialHeap, 0⟩)).mgr.activeHeap = 0 := h.active
  have hnew : (s.withMgr ({ s.mgr with heapsActualSize := heapsSize }.setHeap 0
      ⟨initialHeapSize, host.initialHeap, 0⟩)).mgr.availableHeaps 0 =
      ⟨initialHeapSize, host.initialHeap, 0⟩ := Manager.setHeap_of_eq
  constructor
  case running =>
    refine ⟨h.toBacked.withMgr rfl, h.initialHeap_pos, h.inside, rfl, ?_, .inl ?_⟩
    · rw [hnew]
      exact ⟨rfl, rfl, Nat.zero_le _⟩
    · refine ⟨hactive, h.uncalled, fun i hi => ?_⟩
      rw [withMgr_mgr, Manager.setHeap_of_ne hi.ne']
      exact h.unused i
  case pages_eq => rfl
  case grows_eq => rfl
  case wanted_eq =>
    intro size
    rw [wanted_initial hactive, wanted_initial h.active, hnew, h.unused]
    rfl
  case keeps =>
    rintro p ⟨i, hinit, -⟩
    rw [h.unused] at hinit
    exact absurd hinit (by decide)

lemma Running.prepare (h : s.Running host) :
    s.mgr.prepare host.env = (some s.mgr.activeHeap, s.mgr) := by
  have hactual := h.actual
  unfold heapsSize at hactual
  have hset : ¬ s.mgr.heapsActualSize = 0 := by omega
  unfold Manager.prepare
  rw [if_neg hset]
  dsimp only
  rcases h.heaps with hfirst | ⟨start, hsecond⟩
  · have hinit := h.initial.isInit h.initialHeap_pos
    have hactive := hfirst.active
    have hlt : s.mgr.activeHeap < s.mgr.heapsActualSize := by omega
    rw [if_pos hlt, hactive, if_neg fun hnot => hnot.2 hinit]
  · have hactive := hsecond.active
    have hlt : s.mgr.activeHeap < s.mgr.heapsActualSize := by omega
    rw [if_pos hlt, hactive, if_neg fun hnot => absurd hnot.1 (by decide)]

/-- `prepare` finds the active heap. -/
lemma Layout.prepare (h : s.Layout host) :
    ∃ mgr, s.mgr.prepare host.env = (some mgr.activeHeap, mgr) ∧ s.Ready host (s.withMgr mgr) := by
  rcases h with hfresh | hrunning
  · refine ⟨_, ?_, hfresh.ready⟩
    rw [hfresh.prepare, Manager.setHeap_activeHeap]
    exact congrArg (fun i => (some i, _)) hfresh.active.symm
  · exact ⟨s.mgr, hrunning.prepare, hrunning, rfl, rfl, fun _ => rfl, fun _ hp => hp⟩

/-- When the loop over the heaps gives a block, `malloc` returns it. -/
lemma malloc_of_activeLoop {mgr : Manager} {n : ℕ} (hn : n ≠ 0)
    (hprepare : s.mgr.prepare host.env = (some mgr.activeHeap, mgr)) {P : ℕ → Machine → Prop}
    {E : Halt → Machine → Prop}
    (hloop : Meets (Wasm.activeLoop host (Manager.adjustToMemBlock n) loopBound
      (some mgr.activeHeap)) (s.withMgr mgr) (fun r t => ∃ p, r = some p ∧ P p t) E) :
    Meets (Wasm.malloc host n) s (fun r t => ∃ p, r = some p ∧ P p t) E := by
  unfold Wasm.malloc
  rw [if_neg hn, meets_bind]
  show Meets _ (s.withMgr (s.mgr.prepare host.env).2) _ _
  rw [hprepare]
  apply hloop.bind
  rintro r t ⟨p, rfl, hp⟩
  exact ⟨p, rfl, hp⟩

lemma Layout.malloc (h : s.Layout host) {n : ℕ} (hn : n ≠ 0) {P : ℕ → Machine → Prop}
    {E : Halt → Machine → Prop}
    (hloop : ∀ t, s.Ready host t →
      Meets (Wasm.activeLoop host (Manager.adjustToMemBlock n) loopBound (some t.mgr.activeHeap)) t
        (fun r u => ∃ p, r = some p ∧ P p u) E) :
    Meets (Wasm.malloc host n) s (fun r t => ∃ p, r = some p ∧ P p t) E := by
  obtain ⟨mgr, hprepare, hready⟩ := h.prepare
  have hrun := hloop (s.withMgr mgr) hready
  rw [withMgr_mgr] at hrun
  exact malloc_of_activeLoop hn hprepare hrun

lemma Ready.room_iff (h : s.Ready host t) : t.Room host size ↔ s.Room host size := by
  unfold Room
  rw [h.wanted_eq, h.pages_eq, h.grows_eq]

/-- The loop is followed for more rounds than there are pages. -/
lemma Room.wanted_lt (h : s.Room host size) : s.wanted size < loopBound := by
  unfold loopBound
  rcases h with hzero | ⟨hlt, -⟩
  · omega
  · omega

/-- A request that the heaps and the host can meet. -/
lemma Layout.malloc_ok (h : s.Layout host) {n : ℕ} (hn : n ≠ 0) (hok : s.RequestOk host n) :
    Returns (Wasm.malloc host n) s (fun r t => ∃ p, r = some p ∧ s.Served host n p t) := by
  obtain ⟨hle, hroom⟩ := hok.resolve_left hn
  obtain ⟨-, hadjusted, hsize⟩ := adjustToMemBlock_small hle
  apply h.malloc hn
  intro t ht
  have hroom' := ht.room_iff.mpr hroom
  apply Returns.mono (ht.running.activeLoop_room hsize hroom' hroom'.wanted_lt)
  rintro r u ⟨p, rfl, hp⟩
  refine ⟨p, rfl, ⟨?_, hp.usable.inHeap, hp.usable.inMemory⟩, hp.running, hp.holds, fun q hq => ?_⟩
  · exact hadjusted.trans hp.usable.size_le
  · exact hp.keeps q (ht.keeps q hq)

/-- A request for bytes never gives null. -/
lemma Layout.malloc_isSome (h : s.Layout host) {n : ℕ} (hn : n ≠ 0) (hlt : n < 2 ^ 32) :
    Ensures (Wasm.malloc host n) s (fun r t => ∃ p, r = some p ∧ p < 2 ^ 32 ∧
      t.sizeAt p = Manager.adjustToMemBlock n % 2 ^ 31) :=
  h.malloc hn fun _ _ => Wasm.activeLoop_sizeAt (adjustToMemBlock_lt hlt) loopBound

/-- A request that is not met gives a block that is of no use, or traps. -/
lemma Layout.malloc_not_ok (h : s.Layout host) {n : ℕ} (hlt : n < 2 ^ 32)
    (hnot : ¬ s.RequestOk host n) :
    Ensures (Wasm.malloc host n) s (fun r t => ∃ p, r = some p ∧ ¬ t.Usable p n) := by
  have hn : n ≠ 0 := fun hzero => hnot (.inl hzero)
  by_cases hle : n ≤ 2 ^ 31 - 4
  · apply h.malloc hn
    intro t ht
    -- the size is one that the size word holds, so it is the room that is missing
    have hroom : ¬ t.Room host (Manager.adjustToMemBlock n) :=
      fun hr => hnot (.inr ⟨hle, ht.room_iff.mp hr⟩)
    apply (ht.running.activeLoop_noRoom (adjustToMemBlock_small hle).2.2 hroom loopBound).mono
    rintro r u ⟨p, rfl, hp⟩
    exact ⟨p, rfl, hp n⟩
  · -- the block records a size that lost its highest bit
    have hlarge := adjustToMemBlock_large hlt (not_le.1 hle)
    apply (h.malloc_isSome hn hlt).mono
    rintro r u ⟨p, rfl, -, hp⟩
    refine ⟨p, rfl, fun hu => ?_⟩
    have hrecorded := hu.size_le
    rw [hp] at hrecorded
    omega

lemma malloc_zero : Wasm.malloc host 0 s = .ok none s := rfl

lemma meets_malloc_zero {Q : Option ℕ → Machine → Prop} {E : Halt → Machine → Prop} :
    Meets (Wasm.malloc host 0) s Q E ↔ Q none s := Iff.rfl

/-- `malloc` honours the requests that are met, and no others. -/
lemma Layout.honours_iff (h : s.Layout host) {n : ℕ} (hn : n < 2 ^ 32) :
    s.Honours host n ↔ s.RequestOk host n := by
  constructor
  · rintro ⟨r, t, hret, hall⟩
    by_contra hnot
    obtain ⟨p, hp, hunusable⟩ := (h.malloc_not_ok hn hnot).of_ok hret
    exact hunusable (hall p hp)
  · intro hok
    by_cases hzero : n = 0
    · rw [hzero]
      refine ⟨none, s, malloc_zero, fun p hp => ?_⟩
      cases hp
    · obtain ⟨r, t, hret, p, rfl, hp⟩ := (h.malloc_ok hzero hok).ok
      refine ⟨some p, t, hret, fun q hq => ?_⟩
      cases hq
      exact hp.usable

/-! ## `calloc` -/

lemma memset_zero (m : Mem) (dst : ℕ) (value : UInt8) : memset m dst value 0 = m := by
  funext x
  exact if_neg (by omega)

/-- The size word lies in front of the block. -/
lemma sizeAt_memset {p : ℕ} (value : UInt8) (n : ℕ) (hp : 4 ≤ p) (hlt : p < 2 ^ 32) :
    (s.withMgr { s.mgr with mem := memset s.mgr.mem p value n }).sizeAt p = s.sizeAt p := by
  have hmarker : marker p + 4 = p := by
    unfold marker diff sizeMarker
    omega
  have hsame : ∀ x, x < p → memset s.mgr.mem p value n x = s.mgr.mem x := by
    intro x hx
    exact if_neg (by omega)
  unfold sizeAt load
  simp only [withMgr_mgr]
  rw [hsame _ (by omega), hsame _ (by omega), hsame _ (by omega), hsame _ (by omega)]

lemma sizeAt_lt (s : Machine) (p : ℕ) : s.sizeAt p < 2 ^ 31 := by
  unfold sizeAt
  rw [and_sizeMask]
  exact Nat.mod_lt _ (by decide)

/-- The block is as usable as before its bytes were set. -/
lemma usable_memset {p n m : ℕ} {value : UInt8} (hp : 4 ≤ p) (hlt : p < 2 ^ 32) :
    (s.withMgr { s.mgr with mem := memset s.mgr.mem p value m }).Usable p n ↔ s.Usable p n := by
  have hsize : (s.withMgr { s.mgr with mem := memset s.mgr.mem p value m }).sizeAt p = s.sizeAt p :=
    sizeAt_memset value m hp hlt
  constructor
  · rintro ⟨hle, hin, hmem⟩
    rw [hsize] at hle hin hmem
    exact ⟨hle, hin, hmem⟩
  · rintro ⟨hle, hin, hmem⟩
    rw [← hsize] at hle hin hmem
    exact ⟨hle, hin, hmem⟩

lemma meets_calloc {count size : ℕ} {Q : Option ℕ → Machine → Prop} {E : Halt → Machine → Prop} :
    Meets (Wasm.calloc host count size) s Q E ↔
      Meets (Wasm.malloc host (wrap (count * size))) s (fun r t =>
        if wrap (count * size) = 0 ∨ r.getD 0 + wrap (count * size) ≤ t.pages * 65536 then
          Q r (t.withMgr { t.mgr with mem := memset t.mgr.mem (r.getD 0) 0 (wrap (count * size)) })
        else E .trap t) E := by
  unfold Wasm.calloc
  rw [meets_bind]
  apply iff_of_eq
  congr 1
  funext r t
  apply propext
  rw [meets_bind]
  unfold Wasm.accessBytes
  rw [meets_bind, meets_get]
  split
  · exact Iff.rfl
  · exact Iff.rfl

/-- `calloc` with a product that can be met. -/
lemma Layout.calloc_ok (h : s.Layout host) {count size : ℕ} (hpos : wrap (count * size) ≠ 0)
    (hok : s.RequestOk host (wrap (count * size))) :
    Returns (Wasm.calloc host count size) s (fun r t => ∃ p, r = some p ∧
      s.Served host (wrap (count * size)) p t ∧
        ∀ x < wrap (count * size), t.mgr.mem (p + x) = 0) := by
  unfold Returns
  rw [meets_calloc]
  apply Returns.mono (h.malloc_ok hpos hok)
  rintro r t ⟨p, rfl, hp⟩
  obtain ⟨i, -, hlow, -⟩ := hp.usable.inHeap
  have hin := hp.usable.inMemory
  have hsize := hp.usable.size_le
  have hpages := hp.running.pages_le
  unfold sizeMarker at hlow
  simp only [Option.getD_some]
  rw [if_pos (.inr (by omega))]
  refine ⟨p, rfl, ⟨(usable_memset (by omega) (by omega)).mpr hp.usable,
    hp.running.withMgr rfl rfl rfl rfl, hp.holds, hp.keeps⟩, fun x hx => ?_⟩
  exact if_pos ⟨by omega, by omega⟩

/-- Every other product gives a block that is too small, or traps. -/
lemma Layout.calloc_not_ok (h : s.Layout host) {count size : ℕ}
    (hnot : ¬ s.ProductOk host count size) :
    Ensures (Wasm.calloc host count size) s
      (fun r t => ∃ p, r = some p ∧ ¬ t.Usable p (count * size)) := by
  have hpos : wrap (count * size) ≠ 0 := fun hzero => hnot (.inl hzero)
  have hlt : wrap (count * size) < 2 ^ 32 := Nat.mod_lt _ (by decide)
  unfold Ensures
  rw [meets_calloc]
  by_cases hwraps : count * size < 2 ^ 32
  · have hsame : wrap (count * size) = count * size := Nat.mod_eq_of_lt hwraps
    rw [hsame] at hpos ⊢
    have hrequest : ¬ s.RequestOk host (count * size) := fun hok => hnot (.inr ⟨hwraps, hok⟩)
    apply ((h.malloc_isSome hpos hwraps).and (h.malloc_not_ok hwraps hrequest)).mono
    rintro r t ⟨⟨p, rfl, hp, -⟩, q, hq, hunusable⟩
    cases hq
    split
    · refine ⟨p, rfl, fun hu => hunusable ?_⟩
      obtain ⟨i, -, hlow, -⟩ := hu.inHeap
      unfold sizeMarker at hlow
      exact (usable_memset (by omega) hp).mp hu
    · trivial
  · -- no block records so many bytes
    apply (h.malloc_isSome hpos hlt).mono
    rintro r t ⟨p, rfl, -, -⟩
    split
    · refine ⟨p, rfl, fun hu => ?_⟩
      have hle := hu.size_le
      have hrecorded := sizeAt_lt (t.withMgr { t.mgr with
        mem := memset t.mgr.mem ((some p).getD 0) 0 (wrap (count * size)) }) p
      omega
    · trivial

/-- A product of zero gives null. -/
lemma calloc_zero (host : Host) (s : Machine) {count size : ℕ} (hzero : wrap (count * size) = 0) :
    Returns (Wasm.calloc host count size) s (fun r t => r = none ∧ t = s) := by
  unfold Returns
  rw [meets_calloc, hzero, meets_malloc_zero, if_pos (.inl rfl), memset_zero]
  exact ⟨rfl, rfl⟩

/-- `calloc` keeps its promise for the products that are met, and for no others. -/
lemma Layout.clears_iff (h : s.Layout host) {count size : ℕ} :
    s.Clears host count size ↔ s.ProductOk host count size := by
  constructor
  · rintro ⟨r, t, hret, -, hall⟩
    by_contra hnot
    obtain ⟨p, hp, hunusable⟩ := (h.calloc_not_ok hnot).of_ok hret
    exact hunusable (hall p hp).1
  · intro hok
    by_cases hzero : wrap (count * size) = 0
    · obtain ⟨r, t, hret, rfl, ht⟩ := (calloc_zero host s hzero).ok
      refine ⟨none, t, hret, fun _ => by rw [ht], fun p hp => ?_⟩
      cases hp
    · obtain ⟨hwraps, hrequest⟩ := hok.resolve_left hzero
      have hsame : wrap (count * size) = count * size := Nat.mod_eq_of_lt hwraps
      rw [← hsame] at hrequest
      obtain ⟨r, t, hret, p, rfl, hp, hclear⟩ := (h.calloc_ok hzero hrequest).ok
      rw [hsame] at hp hclear
      refine ⟨some p, t, hret, fun hnone => ?_, fun q hq => ?_⟩
      · cases hnone
      · cases hq
        exact ⟨hp.usable, hclear⟩

/-! ## `free` and `realloc` -/

/-- A change of the memory keeps the layout. -/
lemma Layout.withMgr (h : s.Layout host) {mgr : Manager} (hsbrk : mgr.sbrkBytes = s.mgr.sbrkBytes)
    (hheaps : mgr.availableHeaps = s.mgr.availableHeaps)
    (hactive : mgr.activeHeap = s.mgr.activeHeap)
    (hactual : mgr.heapsActualSize = s.mgr.heapsActualSize) : (s.withMgr mgr).Layout host := by
  rcases h with hfresh | hrunning
  · left
    refine ⟨hfresh.toBacked.withMgr hsbrk, hfresh.initialHeap_pos, hfresh.inside,
      hactual.trans hfresh.actual, hactive.trans hfresh.active, hfresh.uncalled, ?_⟩
    rw [withMgr_mgr, hheaps]
    exact hfresh.unused
  · exact .inr (hrunning.withMgr hsbrk hheaps hactive hactual)

lemma Holds.withMgr {p : ℕ} (h : s.Holds p) {mgr : Manager}
    (hheaps : mgr.availableHeaps = s.mgr.availableHeaps) : (s.withMgr mgr).Holds p := by
  unfold Holds
  rw [withMgr_mgr, hheaps]
  exact h

/-- What keeps the heaps. -/
structure Kept (host : Host) (s t : Machine) : Prop where
  layout : t.Layout host
  keeps : ∀ p, s.Holds p → t.Holds p

lemma Kept.trans {u : Machine} (h : s.Kept host t) (h' : t.Kept host u) : s.Kept host u :=
  ⟨h'.layout, fun p hp => h'.keeps p (h.keeps p hp)⟩

lemma Layout.refl (h : s.Layout host) : s.Kept host s := ⟨h, fun _ hp => hp⟩

/-- A change of the memory. -/
lemma Layout.kept (h : s.Layout host) {mgr : Manager} (hsbrk : mgr.sbrkBytes = s.mgr.sbrkBytes)
    (hheaps : mgr.availableHeaps = s.mgr.availableHeaps)
    (hactive : mgr.activeHeap = s.mgr.activeHeap)
    (hactual : mgr.heapsActualSize = s.mgr.heapsActualSize) : s.Kept host (s.withMgr mgr) :=
  ⟨h.withMgr hsbrk hheaps hactive hactual, fun _ hp => hp.withMgr hheaps⟩

lemma Served.kept {n p : ℕ} (h : s.Served host n p t) : s.Kept host t := ⟨.inr h.running, h.keeps⟩

lemma Layout.free (h : s.Layout host) (p : ℕ) :
    Ensures (Wasm.free p) s (fun _ t => s.Kept host t) := by
  obtain ⟨hsbrk, hactive, hheaps, hactual⟩ := s.mgr.free_fields p
  unfold Ensures
  rw [Wasm.meets_free]
  split
  · exact h.kept hsbrk hheaps hactive hactual
  · trivial

/-- The heap that is found for a pointer is the one that holds it. -/
lemma Running.find_holds (h : s.Running host) {p i : ℕ} (hfind : s.mgr.findHeap p = some i)
    (hp : s.Holds p) : ∃ start stop, (s.mgr.availableHeaps i).Area start stop ∧ stop < 2 ^ 32 ∧
      p ≤ start + (s.mgr.availableHeaps i).offset := by
  obtain ⟨hinit, hin⟩ := Manager.findHeap_spec hfind
  obtain ⟨j, hinit', hlow, hhigh⟩ := hp
  have hinside := h.inside
  have hpages := h.pages_le
  have hempty : Heap.empty.isInit = false := by decide
  have hheap := h.initial.heap_eq
  have hstop := h.initial.stop_eq
  have hoffset := h.initial.offset_le
  unfold initialHeapSize at hstop
  unfold sizeofMemoryManager initialHeapSize heapsSize at hinside
  unfold Heap.isInHeap Heap.heapEnd wrap at hin
  unfold sizeMarker at hin hlow
  have hin := of_decide_eq_true hin
  rcases h.heaps with hfirst | ⟨start, hsecond⟩
  · -- the heaps are apart, so the one that is found is the one that holds the pointer
    have honly : ∀ k, (s.mgr.availableHeaps k).isInit = true → k = 0 := by
      intro k hk
      by_contra hne
      rw [hfirst.rest k (Nat.pos_of_ne_zero hne), hempty] at hk
      cases hk
    rw [honly i hinit]
    rw [honly j hinit'] at hhigh
    exact ⟨_, _, h.initial, by unfold initialHeapSize; omega, by omega⟩
  · have hbehind : ∀ k, (s.mgr.availableHeaps k).isInit = true → k = 0 ∨ k = 1 := by
      intro k hk
      by_contra hne
      rw [hsecond.rest k (by omega), hempty] at hk
      cases hk
    have hstart := hsecond.start_le
    have hlt := hsecond.pages_lt
    have hheap' := hsecond.area.heap_eq
    have hstop' := hsecond.area.stop_eq
    unfold sizeofMemoryManager initialHeapSize heapsSize at hstart
    rcases hbehind i hinit with rfl | rfl
    · refine ⟨_, _, h.initial, by unfold initialHeapSize; omega, ?_⟩
      rcases hbehind j hinit' with rfl | rfl
      · omega
      · omega
    · refine ⟨_, _, hsecond.area, by omega, ?_⟩
      rcases hbehind j hinit' with rfl | rfl
      · omega
      · omega

/-- The last block of a heap grows inside it. -/
lemma Running.extends (h : s.Running host) {p size i : ℕ} {d : Heap} (m : Mem)
    (hfind : s.mgr.findHeap p = some i) (hp : s.Holds p)
    (hsize : size ≤ (s.mgr.availableHeaps i).heapEnd)
    (hext : (s.mgr.availableHeaps i).Extends s.mgr.mem p size d) :
    s.Kept host (s.withMgr (s.mgr.setHeapMem i d m)) := by
  obtain ⟨start, stop, harea, hstop, hoffset⟩ := h.find_holds hfind hp
  have hend : (s.mgr.availableHeaps i).heapEnd = stop := by
    unfold Heap.heapEnd wrap
    rw [harea.heap_eq, harea.stop_eq]
    omega
  have hlow := harea.offset_le
  have hsum := harea.stop_eq
  obtain ⟨hle, hinside, hfits, hlast, hd⟩ := hext
  generalize (bufferAt s.mgr.mem p (s.mgr.availableHeaps i).heapEnd).size = old at *
  rw [hend] at hsize hinside hfits
  rw [harea.heap_eq] at hlast
  unfold wrap diff at *
  -- the block ends at the offset and stays below the end, so neither sum wraps
  have hnew : ((s.mgr.availableHeaps i).offset + (size + 2 ^ 32 - old) % 2 ^ 32) % 2 ^ 32 =
      (s.mgr.availableHeaps i).offset + (size - old) := by
    omega
  rw [hd, hnew]
  refine ⟨.inr (h.setOffset (Manager.findHeap_spec hfind).1 (by omega)), fun q hq =>
    hq.setOffset (by omega)⟩

/-- Before the first `malloc` no heap is found. -/
lemma Fresh.findHeap (h : s.Fresh host) (p : ℕ) : s.mgr.findHeap p = none := by
  unfold Manager.findHeap
  rw [h.actual]
  rfl

lemma Layout.reallocInPlace (h : s.Layout host) {p size : ℕ} (hp : p = 0 ∨ s.Holds p)
    (hsize : ∀ i, s.mgr.findHeap p = some i → size ≤ (s.mgr.availableHeaps i).heapEnd) :
    Ensures (Wasm.reallocInPlace p size) s
      (fun r t => s.Kept host t ∧ ∀ q, r.1 = some q → q = p ∧ s.Holds p) := by
  unfold Ensures
  rw [Wasm.meets_reallocInPlace]
  by_cases hnull : p = 0
  · rw [if_neg (not_not.2 hnull)]
    refine ⟨h.refl, fun q hq => ?_⟩
    cases hq
  · have hholds := hp.resolve_left hnull
    rw [if_pos hnull]
    cases hfind : s.mgr.findHeap p with
    | none =>
      refine ⟨h.refl, fun q hq => ?_⟩
      cases hq
    | some i =>
      dsimp only
      split
      · split
        · rename_i r hr
          obtain ⟨hptr, hheap⟩ := Heap.reallocInPlace_cases hr
          refine ⟨?_, fun q hq => ?_⟩
          · rcases hheap with hsame | hext
            · rw [hsame]
              unfold Manager.setHeapMem
              rw [setHeap_self]
              exact h.kept rfl rfl rfl rfl
            · rcases h with hfresh | hrunning
              · rw [hfresh.findHeap] at hfind
                cases hfind
              · exact hrunning.extends r.mem hfind hholds (hsize i hfind) hext
          · rcases hptr with hnone | hsome
            · rw [hnone] at hq
              cases hq
            · rw [hsome] at hq
              cases hq
              exact ⟨rfl, hholds⟩
        · trivial
      · trivial

lemma Layout.copyBlock (h : s.Layout host) (newAlloc p n : ℕ) :
    Ensures (Wasm.copyBlock newAlloc p n) s (fun _ t => s.Kept host t) := by
  unfold Wasm.copyBlock
  split
  · apply (Wasm.accessBytes_same newAlloc n s).bind
    rintro _ t rfl
    apply (Wasm.accessBytes_same p n t).bind
    rintro _ u rfl
    have hcopied : u.Kept host (u.withMgr { u.mgr with mem := memcpy u.mgr.mem newAlloc p n }) :=
      h.kept rfl rfl rfl rfl
    unfold Ensures
    rw [meets_bind, Wasm.meets_update]
    apply (hcopied.layout.free p).mono
    exact fun _ _ hfreed => hcopied.trans hfreed
  · exact h.refl

/-- A call that is met keeps the heaps, and what it returns is held. -/
lemma Layout.malloc_kept (h : s.Layout host) {n : ℕ} (hok : s.RequestOk host n) :
    Ensures (Wasm.malloc host n) s (fun r t => s.Kept host t ∧ ∀ p, r = some p → t.Holds p) := by
  by_cases hzero : n = 0
  · unfold Ensures
    rw [hzero, meets_malloc_zero]
    refine ⟨h.refl, fun p hp => ?_⟩
    cases hp
  · apply (h.malloc_ok hzero hok).ensures.mono
    rintro r t ⟨p, rfl, hp⟩
    refine ⟨hp.kept, fun q hq => ?_⟩
    cases hq
    exact hp.holds

lemma Layout.calloc_kept (h : s.Layout host) {count size : ℕ}
    (hok : s.RequestOk host (wrap (count * size))) :
    Ensures (Wasm.calloc host count size) s
      (fun r t => s.Kept host t ∧ ∀ p, r = some p → t.Holds p) := by
  by_cases hzero : wrap (count * size) = 0
  · apply (calloc_zero host s hzero).ensures.mono
    rintro r t ⟨rfl, rfl⟩
    refine ⟨h.refl, fun p hp => ?_⟩
    cases hp
  · apply (h.calloc_ok hzero hok).ensures.mono
    rintro r t ⟨p, rfl, hp, -⟩
    refine ⟨hp.kept, fun q hq => ?_⟩
    cases hq
    exact hp.holds

lemma Layout.realloc (h : s.Layout host) {p n : ℕ} (hp : p = 0 ∨ s.Holds p)
    (hsize : ∀ i, s.mgr.findHeap p = some i →
      Manager.adjustToMemBlock n ≤ (s.mgr.availableHeaps i).heapEnd)
    (hok : n ≠ 0 → ∀ origPtrSize t,
      Wasm.reallocInPlace p (Manager.adjustToMemBlock n) s = .ok (none, origPtrSize) t →
        t.RequestOk host (Manager.adjustToMemBlock n)) :
    Ensures (Wasm.realloc host p n) s (fun r t => s.Kept host t ∧ ∀ q, r = some q → t.Holds q) := by
  unfold Wasm.realloc
  split
  · unfold Ensures
    rw [meets_bind]
    apply (h.free p).mono
    intro _ t ht
    refine ⟨ht, fun q hq => ?_⟩
    cases hq
  · rename_i hn
    apply ((h.reallocInPlace hp hsize).and ensures_self).bind
    rintro ⟨reallocPtr, origPtrSize⟩ t ⟨⟨ht, hptr⟩, hret⟩
    dsimp only at hptr ⊢
    cases reallocPtr with
    | some q =>
      obtain ⟨hq, hholds⟩ := hptr q rfl
      refine ⟨ht, fun q' hq' => ?_⟩
      cases hq'
      rw [hq]
      exact ht.keeps p hholds
    | none =>
      rw [if_neg (by decide)]
      apply (ht.layout.malloc_kept (hok hn origPtrSize t hret)).bind
      rintro r u ⟨hu, hholds⟩
      cases r with
      | none =>
        refine ⟨ht.trans hu, fun q hq => ?_⟩
        cases hq
      | some newAlloc =>
        apply (hu.layout.copyBlock newAlloc p _).bind
        intro _ v hv
        refine ⟨(ht.trans hu).trans hv, fun q hq => ?_⟩
        cases hq
        exact hv.keeps newAlloc (hholds newAlloc rfl)

end Machine

/-! ## Runs -/

namespace WasmRun

variable {host : Host} {s t : WasmRun} {op : WasmOp} {ops : List WasmOp}

/-- The heaps are laid out, and they hold every block of the program. -/
structure Inv (host : Host) (s : WasmRun) : Prop where
  layout : s.machine.Layout host
  holds : ∀ a ∈ s.live, s.machine.Holds a.ptr

lemma inv_start (hok : host.Ok) : (start host).Inv host := by
  refine ⟨.inl ⟨(Machine.Sane.start hok).toBacked, hok.initialHeap_pos, hok.inside, rfl, rfl, rfl,
    fun _ => rfl⟩, fun a ha => ?_⟩
  cases ha

lemma Inv.gave (h : s.Inv host) {n : ℕ} {r : Option ℕ} {m : Machine}
    (hkept : s.machine.Kept host m) (hr : ∀ p, r = some p → m.Holds p) : (s.gave n r m).Inv host := by
  cases r with
  | none => exact ⟨hkept.layout, fun a ha => hkept.keeps _ (h.holds a ha)⟩
  | some p =>
    refine ⟨hkept.layout, fun a ha => ?_⟩
    rcases List.mem_cons.1 ha with rfl | ha
    · exact hr p rfl
    · exact hkept.keeps _ (h.holds a ha)

lemma Inv.drop (h : s.Inv host) (p : ℕ) : (s.drop p).Inv host :=
  ⟨h.layout, fun a ha => h.holds a (List.mem_filter.1 ha).1⟩

lemma Inv.machine (h : s.Inv host) {m : Machine} (hkept : s.machine.Kept host m) :
    ({ s with machine := m } : WasmRun).Inv host :=
  ⟨hkept.layout, fun a ha => hkept.keeps _ (h.holds a ha)⟩

/-- A pointer that the program may pass is null or held. -/
lemma Inv.own (h : s.Inv host) {p : ℕ} (hp : p = 0 ∨ ∃ a ∈ s.live, a.ptr = p) :
    p = 0 ∨ s.machine.Holds p := by
  rcases hp with hzero | ⟨a, ha, rfl⟩
  · exact .inl hzero
  · exact .inr (h.holds a ha)

/-- Every step of a proper program whose requests are met keeps the invariant. -/
lemma inv_step (h : s.Inv host) (hproper : s.Proper op)
    (hmet : OnMalloc (Machine.RequestOk host) s op) (hstep : s.step host op = some t) :
    t.Inv host := by
  cases op with
  | malloc n =>
    obtain ⟨⟨r, m⟩, hret, heq⟩ := Option.bind_eq_some_iff.1 hstep
    cases heq
    obtain ⟨hkept, hr⟩ := of_returns (h.layout.malloc_kept hmet) hret
    exact h.gave hkept hr
  | calloc count size =>
    obtain ⟨⟨r, m⟩, hret, heq⟩ := Option.bind_eq_some_iff.1 hstep
    cases heq
    obtain ⟨hkept, hr⟩ := of_returns (h.layout.calloc_kept hmet) hret
    exact h.gave hkept hr
  | free p =>
    obtain ⟨⟨r, m⟩, hret, heq⟩ := Option.bind_eq_some_iff.1 hstep
    cases heq
    have hkept := of_returns (h.layout.free p) hret
    exact (h.drop p).machine hkept
  | realloc p n =>
    obtain ⟨⟨r, m⟩, hret, heq⟩ := Option.bind_eq_some_iff.1 hstep
    have hmet' : n.toNat ≠ 0 → ∀ origPtrSize t,
        Wasm.reallocInPlace p (Manager.adjustToMemBlock n.toNat) s.machine =
          .ok (none, origPtrSize) t → t.RequestOk host (Manager.adjustToMemBlock n.toNat) := by
      intro hn
      exact hmet fun hzero => hn (by rw [hzero]; rfl)
    obtain ⟨hkept, hr⟩ := of_returns
      (h.layout.realloc (h.own hproper.1) hproper.2 hmet') hret
    dsimp only at heq
    split at heq
    · cases heq
      exact (h.drop p).gave hkept hr
    · cases heq
      exact h.machine hkept
  | write x v =>
    cases hstep
    exact h.machine (h.layout.kept rfl rfl rfl rfl)

/-- The sizes of `malloc` have 32 bits. -/
lemma onMalloc_iff (h : s.Inv host) (hproper : s.Proper op) :
    OnMalloc (Machine.Honours host) s op ↔ OnMalloc (Machine.RequestOk host) s op := by
  cases op with
  | malloc n => exact h.layout.honours_iff n.toNat_lt
  | calloc count size => exact h.layout.honours_iff (Nat.mod_lt _ (by decide))
  | free p => exact Iff.rfl
  | realloc p n =>
    have hlt := adjustToMemBlock_lt n.toNat_lt
    have hplace := h.layout.reallocInPlace (h.own hproper.1) hproper.2
    constructor
    · intro hall hn origPtrSize u hret
      exact ((hplace.of_ok hret).1.layout.honours_iff hlt).mp (hall hn origPtrSize u hret)
    · intro hall hn origPtrSize u hret
      exact ((hplace.of_ok hret).1.layout.honours_iff hlt).mpr (hall hn origPtrSize u hret)
  | write x v => exact Iff.rfl

/-- A product that is met is a request that is met. -/
lemma onMalloc_of_onCalloc (hcareful : s.Careful host op)
    (hmet : OnCalloc (Machine.ProductOk host) s op) : OnMalloc (Machine.RequestOk host) s op := by
  cases op with
  | calloc count size =>
    rcases hmet with hzero | ⟨hlt, hok⟩
    · exact .inl hzero
    · have hsame : wrap (count.toNat * size.toNat) = count.toNat * size.toNat :=
        Nat.mod_eq_of_lt hlt
      show s.machine.RequestOk host (wrap (count.toNat * size.toNat))
      rw [hsame]
      exact hok
  | malloc n => exact hcareful.2 fun _ _ => nofun
  | free p => exact hcareful.2 fun _ _ => nofun
  | realloc p n => exact hcareful.2 fun _ _ => nofun
  | write x v => exact hcareful.2 fun _ _ => nofun

/-- When every request of a run can be met and no block is resized above the end of its heap, every
call of `malloc` gives null or a block of the size that was asked for. Of the runs without such a
`realloc` no other has this property. -/
theorem along_honours (host : Host) (hok : host.Ok) (ops : List WasmOp)
    (hown : Runs.Along (step host) Own (start host) ops) :
    (Runs.Along (step host) (fun s op => s.BelowEnd op ∧ OnMalloc (Machine.RequestOk host) s op)
        (start host) ops →
      Runs.Along (step host) (OnMalloc (Machine.Honours host)) (start host) ops) ∧
    (Runs.Along (step host) BelowEnd (start host) ops →
      Runs.Along (step host) (OnMalloc (Machine.Honours host)) (start host) ops →
      Runs.Along (step host) (OnMalloc (Machine.RequestOk host)) (start host) ops) := by
  have hiff (hbelow : Runs.Along (step host) BelowEnd (start host) ops) :
      Runs.Along (step host) (OnMalloc (Machine.Honours host)) (start host) ops ↔
        Runs.Along (step host) (OnMalloc (Machine.RequestOk host)) (start host) ops :=
    Runs.along_iff (inv_start hok) (hown.and hbelow) (fun _ _ h hproper => onMalloc_iff h hproper)
      fun _ _ _ h hproper hmet hstep => inv_step h hproper hmet hstep
  constructor
  · intro hmet
    apply (hiff (hmet.mono fun _ _ h => h.1)).mpr
    exact hmet.mono fun _ _ h => h.2
  · intro hbelow hhonours
    exact (hiff hbelow).mp hhonours

/-- A host that grants every page. -/
def roomyHost : Host := ⟨1024, 1, fun _ => true⟩

lemma roomyHost_ok : roomyHost.Ok := ⟨by decide, by decide, by decide⟩

/-- A block in three new pages. -/
theorem along_honours_roomy :
    Runs.Along (step roomyHost) (OnMalloc (Machine.Honours roomyHost)) (start roomyHost)
      [.malloc 150000] :=
  (along_honours roomyHost roomyHost_ok [.malloc 150000] ⟨trivial, fun _ _ => trivial⟩).1
    ⟨⟨trivial, .inr ⟨by decide, .inr ⟨by decide, fun _ _ => rfl⟩⟩⟩, fun _ _ => trivial⟩

/-- `malloc(2^32 - 1)` gives a block of 4 bytes. -/
theorem exists_not_honours :
    ∃ (host : Host) (ops : List WasmOp) (s : WasmRun) (n : UInt32), host.Ok ∧
      Runs.Along (step host) Proper (start host) ops ∧ (start host).run host ops = some s ∧
      ¬ s.machine.Honours host n.toNat := by
  refine ⟨roomyHost, [], start roomyHost, 2 ^ 32 - 1, roomyHost_ok, trivial, rfl, fun hhonours => ?_⟩
  have hmet := ((inv_start roomyHost_ok).layout.honours_iff (UInt32.toNat_lt _)).mp hhonours
  rcases hmet with hzero | ⟨hle, -⟩
  · exact absurd hzero (by decide)
  · exact absurd hle (by decide)

/-- When every product of a run can be met or wraps to zero, the other requests can be met and no block
is resized above the end of its heap, every call of `calloc` gives null and writes nothing, or a block
of zeros that holds all the elements. Of the runs that are as careful otherwise no other has this
property. -/
theorem along_clears (host : Host) (hok : host.Ok) (ops : List WasmOp)
    (hown : Runs.Along (step host) Own (start host) ops) :
    (Runs.Along (step host)
        (fun s op => s.Careful host op ∧ OnCalloc (Machine.ProductOk host) s op) (start host) ops →
      Runs.Along (step host) (OnCalloc (Machine.Clears host)) (start host) ops) ∧
    (Runs.Along (step host) (Careful host) (start host) ops →
      Runs.Along (step host) (OnCalloc (Machine.Clears host)) (start host) ops →
      Runs.Along (step host) (OnCalloc (Machine.ProductOk host)) (start host) ops) := by
  have hiff (hcareful : Runs.Along (step host) (Careful host) (start host) ops) :
      Runs.Along (step host) (OnCalloc (Machine.Clears host)) (start host) ops ↔
        Runs.Along (step host) (OnCalloc (Machine.ProductOk host)) (start host) ops := by
    refine Runs.along_iff (inv_start hok) (hown.and hcareful) ?_ ?_
    · intro s op h _
      cases op with
      | calloc count size => exact h.layout.clears_iff
      | malloc n => exact Iff.rfl
      | free p => exact Iff.rfl
      | realloc p n => exact Iff.rfl
      | write x v => exact Iff.rfl
    · intro s op t h hop hmet hstep
      exact inv_step h ⟨hop.1, hop.2.1⟩ (onMalloc_of_onCalloc hop.2 hmet) hstep
  constructor
  · intro hmet
    apply (hiff (hmet.mono fun _ _ h => h.1)).mpr
    exact hmet.mono fun _ _ h => h.2
  · intro hcareful hclears
    exact (hiff hcareful).mp hclears

/-- A table of a thousand words. -/
theorem along_clears_roomy :
    Runs.Along (step roomyHost) (OnCalloc (Machine.Clears roomyHost)) (start roomyHost)
      [.calloc 1000 4] :=
  (along_clears roomyHost roomyHost_ok [.calloc 1000 4] ⟨trivial, fun _ _ => trivial⟩).1
    ⟨⟨⟨trivial, fun hne => absurd rfl (hne 1000 4)⟩,
      .inr ⟨by decide, .inr ⟨by decide, .inl (by decide)⟩⟩⟩, fun _ _ => trivial⟩

/-- `calloc(2^31 + 4, 2)` asks `malloc` for 8 bytes. -/
theorem exists_not_clears :
    ∃ (host : Host) (ops : List WasmOp) (s : WasmRun) (count size : UInt32), host.Ok ∧
      Runs.Along (step host) Proper (start host) ops ∧ (start host).run host ops = some s ∧
      ¬ s.machine.Clears host count.toNat size.toNat := by
  refine ⟨roomyHost, [], start roomyHost, 2 ^ 31 + 4, 2, roomyHost_ok, trivial, rfl,
    fun hclears => ?_⟩
  have hmet := (inv_start roomyHost_ok).layout.clears_iff.mp hclears
  rcases hmet with hzero | ⟨hlt, -⟩
  · exact absurd hzero (by decide)
  · exact absurd hlt (by decide)

end WasmRun

end UosioCdt.Malloc
