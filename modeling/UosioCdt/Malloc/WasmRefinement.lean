import UosioCdt.Malloc.ReallocRunTheorems
import UosioCdt.Malloc.WasmMallocTheorems

/-!
# The machine and `memory_manager`

While the requests are met, the machine does what the memory manager does over an `sbrk` that hands
out one area up to the last page, and the blocks of a program are as safe as there.
-/

namespace UosioCdt.Malloc

open Aborting

/-! ## Abstraction -/

/-- Surroundings of the memory manager in which memory is where it is on the machine, and in which
no page is taken for a failure. -/
structure Host.Within (host : Host) (env : Env) : Prop where
  initialHeap_eq : env.initialHeap = host.initialHeap
  limit_eq : env.limit = 65535 * 65536
  toInt64_page : ∀ p, p % 65536 = 0 → env.toInt64 p ≠ -1

namespace Machine

variable {host : Host} {env : Env} {s t : Machine} {size : ℕ}

/-- The memory manager as it is when `sbrk` has been initialised. -/
def manager (s : Machine) : Manager := s.initSbrk.mgr

@[simp] lemma manager_availableHeaps (s : Machine) :
    s.manager.availableHeaps = s.mgr.availableHeaps := mgr_initSbrk_availableHeaps s

@[simp] lemma manager_activeHeap (s : Machine) : s.manager.activeHeap = s.mgr.activeHeap :=
  mgr_initSbrk_activeHeap s

@[simp] lemma manager_mem (s : Machine) : s.manager.mem = s.mgr.mem := by
  unfold manager initSbrk
  split <;> rfl

lemma manager_eq (s : Machine) : s.manager = { s.mgr with sbrkBytes := s.manager.sbrkBytes } := by
  unfold manager initSbrk
  split <;> rfl

lemma manager_of_initialized (h : s.initialized = true) : s.manager = s.mgr := by
  unfold manager
  rw [initSbrk_of_initialized h]

/-- A change of the memory manager that `sbrk` has no part in. -/
lemma manager_withMgr {mgr : Manager} (hsbrk : mgr.sbrkBytes = s.mgr.sbrkBytes) :
    (s.withMgr mgr).manager = { mgr with sbrkBytes := s.manager.sbrkBytes } := by
  by_cases hinit : s.initialized = true
  · rw [manager_of_initialized hinit, manager_of_initialized (s := s.withMgr mgr) hinit, ← hsbrk]
    rfl
  · unfold manager initSbrk
    rw [withMgr_initialized, if_neg hinit, if_neg hinit]
    rfl

lemma manager_withMem (s : Machine) (mem : Mem) :
    (s.withMgr { s.mgr with mem }).manager = { s.manager with mem } := by
  have hsame : ({ s.mgr with mem } : Manager).sbrkBytes = s.mgr.sbrkBytes := rfl
  rw [manager_withMgr hsame]
  conv_rhs => rw [manager_eq s]

/-! ## `malloc` -/

/-- A round of the loop in which the heap gives a block is the same for both. -/
lemma heapMalloc_manager (env : Env) (current fuel : ℕ) :
    Ensures (Wasm.heapMalloc current size) s (fun r t =>
      (r = none → (s.mgr.availableHeaps current).malloc s.mgr.mem size = none) ∧
      ∀ p, r = some p →
        s.manager.activeLoop env size (fuel + 1) (some current) = .ok (some p, t.manager)) := by
  unfold Ensures
  rw [Wasm.meets_heapMalloc]
  cases hmalloc : (s.mgr.availableHeaps current).malloc s.mgr.mem size with
  | none =>
    refine ⟨fun _ => rfl, fun p hp => ?_⟩
    cases hp
  | some r =>
    obtain ⟨buffer, h, mem⟩ := r
    dsimp only
    split
    · refine ⟨fun hnone => ?_, fun p hp => ?_⟩
      · cases hnone
      · cases hp
        unfold Manager.activeLoop
        rw [manager_availableHeaps, manager_mem, hmalloc,
          manager_withMgr Manager.setHeapMem_sbrkBytes, manager_eq s]
        rfl
    · trivial

/-- The memory manager asks for a page, which `sbrk` has. -/
lemma nextActiveHeap_of_room (env : Env) {m : Manager} (hmod : m.sbrkBytes % 65536 = 0)
    (hroom : m.sbrkBytes + 65536 ≤ env.limit) (hlimit : env.limit < 2 ^ 32)
    (hpage : env.toInt64 m.sbrkBytes ≠ -1) :
    m.nextActiveHeap env =
      match (m.availableHeaps m.activeHeap).expandMemory m.sbrkBytes 65536 with
      | some h => (some m.activeHeap,
          { m with sbrkBytes := m.sbrkBytes + 65536 }.setHeap m.activeHeap h)
      | none => (some (m.activeHeap + 1),
          { m with sbrkBytes := m.sbrkBytes + 65536 }.nextHeap m.sbrkBytes 65536) := by
  have hadj : Manager.heapAdj m.sbrkBytes = 65536 := by
    unfold Manager.heapAdj diff wrap wasmPageSize
    rw [if_pos (by omega)]
    omega
  have hnonneg : ¬ (m.sbrkBytes : ℤ) < 0 := by omega
  have hzero : m.sbrk env 0 = (m.sbrkBytes, m) := by
    rw [sbrk_rounded m env (by decide) (Nat.zero_le _), if_pos (by omega)]
    rfl
  have hask : m.sbrk env 65536 = (m.sbrkBytes, { m with sbrkBytes := m.sbrkBytes + 65536 }) := by
    rw [sbrk_rounded m env (by decide) (by decide), if_pos hroom]
  unfold Manager.nextActiveHeap
  simp only [hzero, hadj, hask, if_neg hnonneg, if_neg hpage]
  cases (m.availableHeaps m.activeHeap).expandMemory m.sbrkBytes 65536 with
  | none => rfl
  | some h => rfl

/-- A page that the host grants is the same for both. -/
lemma Running.nextActiveHeap_manager (h : s.Running host) (henv : host.Within env)
    (hpages : s.pages < 65535) (hgrant : host.grants s.grows = true) :
    Ensures (Wasm.nextActiveHeap host) s
      (fun r t => s.manager.nextActiveHeap env = (r, t.manager)) := by
  have hbytes : s.manager.sbrkBytes = s.pages * 65536 := h.sbrkBytes_initSbrk (by omega)
  have hlimit := henv.limit_eq
  have hmod : s.pages * 65536 % 65536 = 0 := Nat.mul_mod_left _ _
  have hsbrk := h.toBacked.initSbrk.sbrk_page host s.initialized_initSbrk
  have hgrown : (s.initSbrk.grown.advance 65536).mgr =
      { s.manager with sbrkBytes := s.pages * 65536 + 65536 } := by
    have hwrap : wrap (s.initSbrk.mgr.sbrkBytes + 65536) = s.pages * 65536 + 65536 := by
      rw [h.sbrkBytes_initSbrk (by omega)]
      exact Nat.mod_eq_of_lt (by omega)
    unfold advance
    rw [grown_mgr, hwrap]
    rfl
  rw [h.sbrkBytes_initSbrk (by omega), pages_initSbrk, grows_initSbrk, if_neg (by omega),
    if_pos hgrant] at hsbrk
  have hnext := nextActiveHeap_of_room env (m := s.manager) (by rw [hbytes]; exact hmod)
    (by omega) (by omega) (by rw [hbytes]; exact henv.toInt64_page _ hmod)
  rw [hnext]
  unfold Ensures
  rw [Wasm.meets_nextActiveHeap h.toBacked, hsbrk]
  dsimp only
  have hinit : (s.initSbrk.grown.advance 65536).initialized = true := by
    rw [advance_initialized, grown_initialized]
    exact s.initialized_initSbrk
  have hmanager : ∀ mgr, ((s.initSbrk.grown.advance 65536).withMgr mgr).manager = mgr :=
    fun mgr => manager_of_initialized hinit
  rw [Wasm.meets_useMemory, hgrown]
  dsimp only
  rw [hbytes]
  cases (s.manager.availableHeaps s.manager.activeHeap).expandMemory (s.pages * 65536) 65536 with
  | some d =>
    dsimp only
    rw [hmanager]
  | none =>
    dsimp only
    split
    · rw [hmanager]
    · trivial

/-- Where there is room, the loop over the heaps is the same for both. -/
lemma Running.activeLoop_manager (h : s.Running host) (henv : host.Within env)
    (hsize : size < 2 ^ 31) (hroom : s.Room host size) (fuel : ℕ) :
    Ensures (Wasm.activeLoop host size fuel (some s.mgr.activeHeap)) s (fun r t =>
      s.manager.activeLoop env size fuel (some s.mgr.activeHeap) = .ok (r, t.manager)) := by
  induction fuel generalizing s with
  | zero => trivial
  | succ fuel ih =>
    unfold Ensures
    rw [Wasm.meets_activeLoop]
    by_cases hfits : s.wanted size = 0
    · -- the block fits behind the offset, and both loops end
      apply ((h.heapMalloc_fits hsize hfits).ensures.and
        (heapMalloc_manager env s.mgr.activeHeap fuel)).mono
      rintro r t ⟨⟨p, rfl, -⟩, -, hmanager⟩
      exact hmanager p rfl
    · -- the heap is full, and both take the page that the host grants
      have hall := hroom.resolve_left hfits
      have hpages : s.pages < 65535 := by omega
      have hgrant : host.grants s.grows = true := hall.2 0 (Nat.pos_of_ne_zero hfits)
      apply ((h.heapMalloc_full hfits (h.no_wrap hsize hall.1)).ensures.and
        (heapMalloc_manager env s.mgr.activeHeap fuel)).mono
      rintro r t ⟨⟨rfl, ht⟩, hnone, -⟩
      rw [ht]
      apply ((h.nextActiveHeap_granted hpages hgrant).ensures.and
        (h.nextActiveHeap_manager henv hpages hgrant)).mono
      rintro next u ⟨⟨rfl, hu⟩, hmanager⟩
      apply (ih hu.running ((hu.room_iff hfits hpages hgrant).mpr hroom)).mono
      intro r v hv
      rw [Manager.activeLoop, manager_availableHeaps, manager_mem, hnone rfl]
      dsimp only
      rw [hmanager]
      exact hv

/-- The preparation has no part in `sbrk`. -/
lemma prepare_sbrkBytes (m : Manager) (b : ℕ) (henv : env.initialHeap = host.initialHeap) :
    ({ m with sbrkBytes := b } : Manager).prepare env =
      ((m.prepare host.env).1, { (m.prepare host.env).2 with sbrkBytes := b }) := by
  unfold Manager.prepare Host.env
  rw [henv]
  split
  · dsimp only
    split
    · split
      · rfl
      · rfl
    · rfl
  · dsimp only
    split
    · split
      · rfl
      · rfl
    · rfl

/-- A request that is met has the same result for both. -/
lemma Layout.malloc_manager (h : s.Layout host) (henv : host.Within env) {n : ℕ}
    (hok : s.RequestOk host n) :
    Ensures (Wasm.malloc host n) s (fun r t => s.manager.malloc env n = .ok (r, t.manager)) := by
  by_cases hn : n = 0
  · rw [hn]
    exact rfl
  · obtain ⟨hle, hroom⟩ := hok.resolve_left hn
    obtain ⟨-, -, hsize⟩ := adjustToMemBlock_small hle
    obtain ⟨mgr, hprepare, ht⟩ := h.prepare
    have hsbrk : mgr.sbrkBytes = s.mgr.sbrkBytes := by
      have hfields := (s.mgr.prepare_fields host.env).1
      rwa [hprepare] at hfields
    have hmanager : s.manager.prepare env = (some mgr.activeHeap, (s.withMgr mgr).manager) := by
      rw [manager_eq s, prepare_sbrkBytes s.mgr _ henv.initialHeap_eq, manager_withMgr hsbrk,
        hprepare]
    have hroom' := ht.room_iff.mpr hroom
    -- with room the loop gives a block, so the freed blocks are not searched
    have hloop := (ht.running.activeLoop_room hsize hroom' hroom'.wanted_lt).ensures.and
      (ht.running.activeLoop_manager henv hsize hroom' loopBound)
    have hrun : Ensures (Wasm.malloc host n) s (fun r t => ∃ p, r = some p ∧
        (s.withMgr mgr).manager.activeLoop env (Manager.adjustToMemBlock n) loopBound
          (some mgr.activeHeap) = .ok (some p, t.manager)) := by
      apply malloc_of_activeLoop hn hprepare
      apply hloop.mono
      rintro r t ⟨⟨p, rfl, -⟩, heq⟩
      exact ⟨p, rfl, heq⟩
    apply hrun.mono
    rintro r t ⟨p, rfl, heq⟩
    unfold Manager.malloc
    rw [if_neg hn, hmanager]
    simp only [heq]
    rfl

/-! ## `free` and `realloc` -/

lemma manager_findHeap (s : Machine) (p : ℕ) : s.manager.findHeap p = s.mgr.findHeap p := by
  rw [manager_eq s]
  rfl

/-- `free` changes one size word, if any. -/
lemma free_eq (m : Manager) (p : ℕ) :
    m.free p = { m with
      mem := if p ≠ 0 ∧ (m.findHeap p).isSome then Heap.free m.mem p else m.mem } := by
  unfold Manager.free
  by_cases hp : p = 0
  · rw [if_pos hp, if_neg fun hboth => hboth.1 hp]
  · rw [if_neg hp]
    cases hfind : m.findHeap p with
    | none => rw [if_neg fun hboth => absurd hboth.2 (by decide)]
    | some i => rw [if_pos ⟨hp, rfl⟩]

lemma free_manager (s : Machine) (p : ℕ) :
    Ensures (Wasm.free p) s (fun _ t => t.manager = s.manager.free p) := by
  unfold Ensures
  rw [Wasm.meets_free]
  split
  · rw [free_eq, free_eq, manager_withMem, manager_findHeap, manager_mem]
  · trivial

/-- The part of `realloc` in front of `malloc` is the same for both. -/
lemma reallocInPlace_manager (s : Machine) (p size : ℕ) :
    Ensures (Wasm.reallocInPlace p size) s (fun r t =>
      (if p ≠ 0 then s.manager.findHeap p else none) = none ∧ r = (none, 0) ∧ t = s ∨
      ∃ i q, (if p ≠ 0 then s.manager.findHeap p else none) = some i ∧
        (s.manager.availableHeaps i).reallocInPlace s.manager.mem p size = .ok q ∧
        r = (q.ptr, q.origPtrSize) ∧
        t.manager = { s.manager.setHeap i q.heap with mem := q.mem }) := by
  unfold Ensures
  rw [Wasm.meets_reallocInPlace, manager_findHeap, manager_availableHeaps, manager_mem]
  cases (if p ≠ 0 then s.mgr.findHeap p else none) with
  | none => exact .inl ⟨rfl, rfl, rfl⟩
  | some i =>
    dsimp only
    split
    · split
      · rename_i q hq
        refine .inr ⟨i, q, rfl, hq, rfl, ?_⟩
        rw [manager_withMgr Manager.setHeapMem_sbrkBytes, manager_eq s]
        rfl
      · trivial
    · trivial

lemma copyBlock_manager (s : Machine) (newAlloc p n : ℕ) :
    Ensures (Wasm.copyBlock newAlloc p n) s (fun _ t => t.manager =
      if n > 0 then { s.manager with mem := memcpy s.manager.mem newAlloc p n }.free p
      else s.manager) := by
  unfold Wasm.copyBlock
  split
  · apply (Wasm.accessBytes_same newAlloc n s).bind
    rintro _ t rfl
    apply (Wasm.accessBytes_same p n t).bind
    rintro _ u rfl
    unfold Ensures
    rw [meets_bind, Wasm.meets_update, manager_mem, ← manager_withMem]
    exact free_manager _ p
  · exact rfl

/-- The part of `realloc` behind `reallocInPlace`. -/
def moveBlock (host : Host) (p size origPtrSize : ℕ) : Wasm (Option ℕ) := do
  match ← Wasm.malloc host size with
  | none => return none
  | some newAlloc =>
    Wasm.copyBlock newAlloc p (if size < origPtrSize then size else origPtrSize)
    return some newAlloc

/-- A new block with a copy is the same for both. -/
lemma Layout.moveBlock_manager (h : s.Layout host) (henv : host.Within env)
    (hok : s.RequestOk host size) (p origPtrSize : ℕ) :
    Ensures (moveBlock host p size origPtrSize) s (fun r t =>
      s.manager.reallocCopy env p size origPtrSize = .ok (r, t.manager)) := by
  unfold moveBlock
  apply (h.malloc_manager henv hok).bind
  intro r t hmalloc
  unfold Manager.reallocCopy
  cases r with
  | none =>
    show _ = _
    rw [hmalloc]
    rfl
  | some newAlloc =>
    apply (copyBlock_manager t newAlloc p _).bind
    intro _ u hu
    show _ = _
    rw [hmalloc, hu]
    generalize (if size < origPtrSize then size else origPtrSize) = copySize
    show (if copySize > 0 then _ else _) = _
    split
    · rfl
    · rfl

lemma Layout.realloc_manager (h : s.Layout host) (henv : host.Within env) {p n : ℕ} (hn : n ≠ 0)
    (hp : p = 0 ∨ s.Holds p)
    (hsize : ∀ i, s.mgr.findHeap p = some i →
      Manager.adjustToMemBlock n ≤ (s.mgr.availableHeaps i).heapEnd)
    (hok : n ≠ 0 → ∀ origPtrSize t,
      Wasm.reallocInPlace p (Manager.adjustToMemBlock n) s = .ok (none, origPtrSize) t →
        t.RequestOk host (Manager.adjustToMemBlock n)) :
    Ensures (Wasm.realloc host p n) s
      (fun r t => s.manager.realloc env p n = .ok (r, t.manager)) := by
  unfold Wasm.realloc
  rw [if_neg hn]
  apply (((h.reallocInPlace hp hsize).and ensures_self).and (reallocInPlace_manager s p _)).bind
  rintro ⟨reallocPtr, origPtrSize⟩ t ⟨⟨⟨ht, -⟩, hret⟩, hcase⟩
  unfold Manager.realloc
  rw [if_neg hn]
  -- without a heap of the pointer nothing is resized, and nothing is copied
  rcases hcase with ⟨hfind, hpair, hsame⟩ | ⟨i, q, hfind, hplace, hpair, hmanager⟩
  · cases hpair
    rw [hsame]
    have hmet := hok hn 0 t hret
    rw [hsame] at hmet
    have hmove := h.moveBlock_manager henv hmet p 0
    rw [hfind]
    exact hmove
  · cases hpair
    rw [hfind]
    dsimp only
    rw [hplace]
    cases hptr : q.ptr with
    | some q' =>
      show _ = _
      rw [hmanager]
      simp only [bind, Except.bind, hptr]
      rfl
    | none =>
      rw [hptr] at hret
      have hmove := ht.layout.moveBlock_manager henv (hok hn _ t hret) p q.origPtrSize
      rw [hmanager] at hmove
      simp only [bind, Except.bind, hptr]
      exact hmove

end Machine

/-! ## Runs -/

/-- The step of a program over the memory manager, which has no `calloc`. -/
def WasmOp.toOp : WasmOp → Option Op
  | .malloc n => some (.malloc n.toNat)
  | .calloc _ _ => none
  | .free p => some (.free p)
  | .realloc p n => if n = 0 then none else some (.realloc p n.toNat)
  | .write x v => some (.write x v)

lemma WasmOp.toOp_realloc {p : ℕ} {n : UInt32} {o : Op} (hop : (realloc p n).toOp = some o) :
    n ≠ 0 ∧ o = .realloc p n.toNat := by
  by_cases hn : n = 0
  · rw [hn] at hop
    cases hop
  · have hsome : (realloc p n).toOp = some (.realloc p n.toNat) := if_neg hn
    rw [hsome] at hop
    exact ⟨hn, (Option.some.inj hop).symm⟩

namespace WasmRun

variable {host : Host} {env : Env} {s t : WasmRun} {op : WasmOp} {ops : List WasmOp} {o : Op}

/-- The memory manager, with the same blocks. -/
def toSt (s : WasmRun) : St := ⟨s.machine.manager, s.live⟩

/-- A step whose request is met is the step of the memory manager. -/
lemma step_toSt (henv : host.Within env) (h : s.Inv host) (hproper : s.Proper op)
    (hmet : OnMalloc (Machine.RequestOk host) s op) (hop : op.toOp = some o)
    (hstep : s.step host op = some t) : s.toSt.step env o = .ok t.toSt := by
  cases op with
  | malloc n =>
    obtain ⟨⟨r, m⟩, hret, heq⟩ := Option.bind_eq_some_iff.1 hstep
    cases heq
    cases hop
    have hmalloc := of_returns (h.layout.malloc_manager henv hmet) hret
    rw [step_malloc hmalloc]
    cases r with
    | none => rfl
    | some p => rfl
  | calloc count size => cases hop
  | free p =>
    obtain ⟨⟨r, m⟩, hret, heq⟩ := Option.bind_eq_some_iff.1 hstep
    cases heq
    cases hop
    have hfree := of_returns (s.machine.free_manager p) hret
    show Except.ok (⟨s.machine.manager.free p, _⟩ : St) = .ok ⟨m.manager, _⟩
    rw [hfree]
    rfl
  | realloc p n =>
    obtain ⟨⟨r, m⟩, hret, heq⟩ := Option.bind_eq_some_iff.1 hstep
    obtain ⟨hn, rfl⟩ := WasmOp.toOp_realloc hop
    have hpos : n.toNat ≠ 0 := fun hzero => hn (UInt32.toNat_inj.1 hzero)
    have hrealloc := of_returns (h.layout.realloc_manager henv hpos (h.own hproper.1) hproper.2
      fun _ => hmet hn) hret
    show (do return s.toSt.realloced p n.toNat (← s.machine.manager.realloc env p n.toNat) :
      Except Fault St) = _
    rw [hrealloc]
    dsimp only at heq
    cases r with
    | none =>
      rw [if_neg (by rintro (hsome | hzero); exacts [absurd hsome (by decide), hn hzero])] at heq
      cases heq
      rfl
    | some q =>
      rw [if_pos (.inl rfl)] at heq
      cases heq
      rfl
  | write x v =>
    cases hstep
    cases hop
    show Except.ok (⟨_, _⟩ : St) = .ok ⟨_, _⟩
    rw [Machine.manager_withMem]
    show Except.ok (⟨{ s.machine.manager with mem := _ }, _⟩ : St) = _
    rw [← Machine.manager_mem]
    rfl

/-- Where a request is met, its sum does not wrap. -/
lemma Inv.noWrap (h : s.Inv host) {n : ℕ} (hn : n ≠ 0) (hmet : s.machine.RequestOk host n) :
    NoWrap s.machine.manager n := by
  obtain ⟨hle, hroom⟩ := hmet.resolve_left hn
  obtain ⟨-, -, hsize⟩ := adjustToMemBlock_small hle
  unfold NoWrap
  rw [Machine.manager_availableHeaps, Machine.manager_activeHeap]
  rcases h.layout with hfresh | hrunning
  · have hoffset : Heap.empty.offset = 0 := rfl
    rw [hfresh.unused, hoffset]
    omega
  · rcases hroom with hfits | ⟨hlt, -⟩
    · rcases hrunning.heaps with hfirst | ⟨start, hsecond⟩
      · rw [Machine.wanted_initial hfirst.active] at hfits
        rw [hfirst.active]
        split at hfits
        · omega
        · omega
      · have hpages := hsecond.pages_lt
        exact hrunning.no_wrap hsize (by omega)
    · exact hrunning.no_wrap hsize hlt

/-- A step of the memory manager, for at most 2^30 bytes and with blocks of the program. A block
that is resized neither overruns its heap nor wraps the sum of `malloc`. -/
def Plain (s : WasmRun) (op : WasmOp) : Prop :=
  ∃ o, op.toOp = some o ∧ o.Valid s.toSt ∧ (o.isRealloc = true → RequestOk s.toSt o)

lemma Inv.requestOk (h : s.Inv host) (hmet : OnMalloc (Machine.RequestOk host) s op)
    (hop : op.toOp = some o) (hvalid : o.Valid s.toSt)
    (hrealloc : o.isRealloc = true → RequestOk s.toSt o) : RequestOk s.toSt o := by
  cases op with
  | malloc n =>
    cases hop
    exact h.noWrap (Nat.ne_of_gt hvalid.1) hmet
  | calloc count size => cases hop
  | free p =>
    cases hop
    trivial
  | realloc p n =>
    obtain ⟨-, rfl⟩ := WasmOp.toOp_realloc hop
    exact hrealloc rfl
  | write x v =>
    cases hop
    trivial

/-- The invariant of the memory manager holds on the machine. -/
lemma inv_toSt_step (henv : env.Ok) (hwithin : host.Within env) (h : s.Inv host)
    (hproper : s.Proper op) (hmet : OnMalloc (Machine.RequestOk host) s op) (hplain : s.Plain op)
    (hinv : Malloc.Inv env s.toSt) (hstep : s.step host op = some t) : Malloc.Inv env t.toSt := by
  obtain ⟨o, hop, hvalid, hrealloc⟩ := hplain
  obtain ⟨-, u, hu, hinv'⟩ := hinv.request henv hvalid (h.requestOk hmet hop hvalid hrealloc)
  -- the step of the memory manager is the one that the machine took
  rw [step_toSt hwithin h hproper hmet hop hstep] at hu
  cases hu
  exact hinv'

end WasmRun

/-- The surroundings of the memory manager, with a failure of `sbrk` that it would recognise. -/
def Host.signedEnv (host : Host) : Env :=
  { host.env with toInt64 := fun p => if p < 2 ^ 31 then p else p - 2 ^ 32 }

lemma Host.Ok.signedEnv {host : Host} (hok : host.Ok) (hpages : host.pages < 65536) :
    host.signedEnv.Ok where
  initialHeap_pos := hok.initialHeap_pos
  apart := by
    have hinside := hok.inside
    unfold sizeofMemoryManager heapsSize at hinside
    show host.initialHeap + initialHeapSize < host.pages * 65536
    omega
  memoryEnd_mod := by
    show host.pages * 65536 % 8 = 0
    omega
  memoryEnd_le := by
    show host.pages * 65536 ≤ 65535 * 65536
    omega
  limit_lt := by
    show 65535 * 65536 < 2 ^ 32
    decide
  toInt64_failure := rfl
  toInt64_area p hp hmod := by
    show (if p < 2 ^ 31 then (p : ℤ) else p - 2 ^ 32) ≠ -1
    split
    · omega
    · omega

lemma Host.within_signedEnv (host : Host) : host.Within host.signedEnv where
  initialHeap_eq := rfl
  limit_eq := rfl
  toInt64_page p hp := by
    show (if p < 2 ^ 31 then (p : ℤ) else p - 2 ^ 32) ≠ -1
    split
    · omega
    · omega

namespace WasmRun

variable {host : Host} {env : Env} {s t : WasmRun} {ops : List WasmOp}

lemma toSt_start (hpages : host.pages < 65536) : (start host).toSt = host.signedEnv.start := by
  have hwrap : wrap (host.pages * 65536) = host.pages * 65536 := Nat.mod_eq_of_lt (by omega)
  show (⟨{ host.env.initial with sbrkBytes := wrap (host.pages * 65536) }, []⟩ : St) = _
  rw [hwrap]
  rfl

/-- A run on the machine whose requests are met is the run of the memory manager with the same
operations, which keeps its invariant. -/
lemma run_toSt (henv : env.Ok) (hwithin : host.Within env) (h : s.Inv host)
    (hinv : Malloc.Inv env s.toSt)
    (hops : Runs.Along (step host) (fun s op => s.Proper op ∧
      s.OnMalloc (Machine.RequestOk host) op ∧ s.Plain op) s ops)
    (hrun : s.run host ops = some t) :
    ∃ os, ops.mapM WasmOp.toOp = some os ∧ s.toSt.run env os = .ok t.toSt ∧
      Malloc.Inv env t.toSt := by
  induction ops generalizing s with
  | nil =>
    cases hrun
    exact ⟨[], rfl, rfl, hinv⟩
  | cons op ops ih =>
    obtain ⟨⟨hproper, hmet, hplain⟩, hrest⟩ := hops
    unfold run at hrun
    rw [List.foldlM_cons] at hrun
    obtain ⟨u, hstep, hrun⟩ := Option.bind_eq_some_iff.1 hrun
    have hinv' := inv_toSt_step henv hwithin h hproper hmet hplain hinv hstep
    obtain ⟨o, hop, -, -⟩ := hplain
    have hmanager := step_toSt hwithin h hproper hmet hop hstep
    obtain ⟨os, hos, hruns, ht⟩ := ih (inv_step h hproper hmet hstep) hinv' (hrest u hstep) hrun
    refine ⟨o :: os, ?_, ?_, ht⟩
    · rw [List.mapM_cons, hop, hos]
      rfl
    · show (do (← s.toSt.step env o).run env os : Except Fault St) = _
      rw [hmanager]
      exact hruns

/-- A run on the machine whose requests are met is a run of the memory manager over one area of
memory. Behind it the heaps are tiled and the blocks of the program are apart. -/
theorem run_refines_manager (hok : host.Ok) (hpages : host.pages < 65536)
    (hops : Runs.Along (step host) (fun s op => s.Proper op ∧
      s.OnMalloc (Machine.RequestOk host) op ∧ s.Plain op) (start host) ops)
    (hrun : (start host).run host ops = some t) :
    ∃ os, ops.mapM WasmOp.toOp = some os ∧
      host.signedEnv.start.run host.signedEnv os = .ok t.toSt ∧ Safe t.toSt := by
  have henv := hok.signedEnv hpages
  have hstart : Malloc.Inv host.signedEnv (start host).toSt := by
    rw [toSt_start hpages]
    exact Malloc.inv_start henv
  obtain ⟨os, hos, hruns, hinv⟩ :=
    run_toSt henv host.within_signedEnv (inv_start hok) hstart hops hrun
  rw [toSt_start hpages] at hruns
  exact ⟨os, hos, hruns, hinv.safe henv⟩

/-- A block of the initial heap is given back, and the program writes into one of the second heap, in
a new page. -/
theorem run_refines_manager_roomy :
    ∃ t os, (start roomyHost).run roomyHost
        [.malloc 100, .malloc 9000, .free 1028, .write 65600 7] = some t ∧
      t.live = [⟨65540, 9000⟩] ∧
      [.malloc 100, .malloc 9000, .free 1028, .write 65600 7].mapM WasmOp.toOp = some os ∧
      roomyHost.signedEnv.start.run roomyHost.signedEnv os = .ok t.toSt ∧ Safe t.toSt := by
  have hops : Runs.Along (step roomyHost) (fun s op => s.Proper op ∧
      s.OnMalloc (Machine.RequestOk roomyHost) op ∧ s.Plain op) (start roomyHost)
      [.malloc 100, .malloc 9000, .free 1028, .write 65600 7] := by
    refine ⟨⟨⟨trivial, trivial⟩, .inr ⟨by decide, .inl (by decide)⟩, .malloc 100, rfl, by decide,
      nofun⟩, ?_⟩
    intro s hs
    obtain rfl := Option.some.inj hs
    -- the second block does not fit into the initial heap, and the host grants the page
    refine ⟨⟨⟨trivial, trivial⟩, .inr ⟨by decide, .inr ⟨by decide, fun _ _ => rfl⟩⟩,
      .malloc 9000, rfl, by decide, nofun⟩, ?_⟩
    intro s hs
    obtain rfl := Option.some.inj hs
    refine ⟨⟨⟨.inr (by decide), trivial⟩, trivial, .free 1028, rfl, by decide, nofun⟩, ?_⟩
    intro s hs
    obtain rfl := Option.some.inj hs
    exact ⟨⟨⟨by unfold Own; decide, trivial⟩, trivial, .write 65600 7, rfl, by decide, nofun⟩,
      fun _ _ => trivial⟩
  obtain ⟨os, hos⟩ := run_refines_manager roomyHost_ok (by decide) hops rfl
  exact ⟨_, os, rfl, by decide +kernel, hos⟩

end WasmRun

end UosioCdt.Malloc
