import UosioCdt.Malloc.Run

/-!
# `malloc` and `free` are safe as long as the offset does not wrap

`memory::malloc` compares the used size, a 32-bit sum, with the size of the heap. The runs in which
that sum never wraps are those in which the heaps stay safe.
-/

namespace UosioCdt.Malloc

open Tiling

variable {env : Env} {s : St} {ops : List Op} {k : ℕ}

/-- Every state of the run is safe, and every call returns. -/
def AlwaysSafe (env : Env) : St → List Op → Prop
  | s, [] => Safe s
  | s, op :: ops => Safe s ∧ ∃ t, s.step env op = .ok t ∧ AlwaysSafe env t ops

lemma AlwaysSafe.safe (h : AlwaysSafe env s ops) : Safe s := by
  cases ops with
  | nil => exact h
  | cons op ops => exact h.1

/-! ## The sum does not wrap -/

/-- A step without `realloc` keeps the invariant. -/
lemma Inv.step (henv : env.Ok) (h : Inv env s) {op : Op} (hop : op.isRealloc = false)
    (hvalid : op.Valid s) (hwrap : NoWrapAt s op) : ∃ t, s.step env op = .ok t ∧ Inv env t := by
  cases op with
  | malloc n => exact h.malloc henv hvalid.1 hvalid.2 hwrap
  | free p => exact h.free henv hvalid
  | realloc p n => exact absurd hop Bool.noConfusion
  | write x v => exact h.write henv hvalid

/-! ## The sum wraps -/

/-- The used size is compared after it has wrapped. -/
lemma Heap.malloc_wraps {h : Heap} {m : Mem} {size : ℕ} (hoff : h.offset ≤ h.heapSize)
    (hend : h.heap + h.heapSize + 4 < 2 ^ 32) (hsize : size < 2 ^ 31)
    (hwrap : 2 ^ 32 ≤ h.offset + size + 4) :
    ∃ h' m', h.malloc m size = some (h.heap + h.offset + 4, h', m') ∧
      h'.heap = h.heap ∧ h'.heapSize = h.heapSize := by
  have hused : ¬ wrap (wrap (h.offset + size) + sizeMarker) > h.heapSize := by
    unfold wrap sizeMarker
    omega
  have hptr : wrap (h.heap + wrap (h.offset + sizeMarker)) = h.heap + h.offset + 4 := by
    unfold wrap sizeMarker
    omega
  unfold Heap.malloc
  rw [if_neg hused, hptr]
  exact ⟨_, _, rfl, rfl, rfl⟩

/-- The sum wraps in the second heap only. -/
lemma Ready.second_of_wraps {s : Manager} {n : ℕ} {bs : ℕ → List Block} (hr : Ready env s n bs)
    (hk : k ≤ 2 ^ 30) (hwrap : ¬ NoWrap s k) : n = 2 ∧ s.activeHeap = 1 := by
  obtain ⟨-, -, hlt⟩ := adjustToMemBlock_spec (k := k) (by omega)
  have htwo := hr.two
  have hinitial : initialHeapSize = 8192 := rfl
  have hempty : Heap.empty.offset = 0 := rfl
  unfold NoWrap at hwrap
  have hin : s.activeHeap < n := by
    by_contra hge
    rw [hr.empty _ (by omega)] at hwrap
    omega
  have hne : s.activeHeap ≠ 0 := by
    intro hzero
    rw [hzero] at hwrap hin
    have hoff := (hr.laid 0 hin).offset_le
    have hfirst := hr.first hin
    omega
  omega

/-- The block that `malloc` returns when the sum wraps is not in a heap. -/
lemma Inv.malloc_wraps (henv : env.Ok) (h : Inv env s) (hpos : 0 < k) (hk : k ≤ 2 ^ 30)
    (hwrap : ¬ NoWrap s.mgr k) : ∃ t, s.step env (.malloc k) = .ok t ∧ ¬ Safe t := by
  obtain ⟨n, bs, hr, hphase, -⟩ := h
  obtain ⟨-, hle, hlt⟩ := adjustToMemBlock_spec (k := k) (by omega)
  obtain ⟨rfl, hactive⟩ := hr.second_of_wraps hk hwrap
  have hlimit := henv.limit_lt
  have hapart := henv.apart
  have hinitial : initialHeapSize = 8192 := rfl
  have hstart := (hr.second (by omega)).1
  have hl := hr.laid 1 (by omega)
  unfold NoWrap at hwrap
  rw [hactive] at hwrap
  have hshort : Manager.adjustToMemBlock k < 2 ^ 31 := by omega
  obtain ⟨h', m', heq, hheap, hsize⟩ :=
    Heap.malloc_wraps (m := s.mgr.mem) hl.offset_le hl.end_lt hshort (by omega)
  have hmalloc : s.mgr.malloc env k = .ok (some ((s.mgr.availableHeaps 1).heap
      + (s.mgr.availableHeaps 1).offset + 4), { s.mgr.setHeap 1 h' with mem := m' }) := by
    unfold Manager.malloc
    rw [if_neg (by omega), hr.prepare_active hphase (by omega), hactive]
    show (Manager.activeLoop env _ (4294967295 + 1) _ _ >>= _) = _
    rw [Manager.activeLoop, heq]
    rfl
  refine ⟨_, step_malloc hmalloc, ?_⟩
  -- every heap ends before the block does
  rintro ⟨bs', hsafe⟩
  obtain ⟨i, hinit, -, hhi⟩ := hsafe.inside _ List.mem_cons_self
  change (if i = 1 then h' else s.mgr.availableHeaps i).isInit = true at hinit
  change _ + k ≤ (if i = 1 then h' else s.mgr.availableHeaps i).heap
    + (if i = 1 then h' else s.mgr.availableHeaps i).heapSize at hhi
  have hbelow : ∀ j < 2, (s.mgr.availableHeaps j).heap + (s.mgr.availableHeaps j).heapSize
      ≤ env.limit := fun j hj => le_trans (hr.heap_le henv hj) hr.sbrk_le
  by_cases hi : i = 1
  · rw [if_pos hi, hheap, hsize] at hhi
    have hend := hbelow 1 (by omega)
    simp only at hhi
    omega
  · rw [if_neg hi] at hinit hhi
    have hend := hbelow i ((hr.isInit_iff i).mp hinit)
    simp only at hhi
    omega

/-! ## Runs -/

lemma alwaysSafe_iff (henv : env.Ok) (h : Inv env s) (hops : ∀ op ∈ ops, op.isRealloc = false)
    (hvalid : Along env (fun s op => op.Valid s) s ops) :
    AlwaysSafe env s ops ↔ Along env NoWrapAt s ops := by
  induction ops generalizing s with
  | nil => exact ⟨fun _ => trivial, fun _ => h.safe henv⟩
  | cons op ops ih =>
    obtain ⟨hop, hrest⟩ := hvalid
    have hreal := hops op List.mem_cons_self
    have htail : ∀ o ∈ ops, o.isRealloc = false := fun o ho => hops o (List.mem_cons_of_mem _ ho)
    constructor
    · rintro ⟨-, t, ht, hsafe⟩
      -- a wrapped sum would have made the next state unsafe
      have hwrap : NoWrapAt s op := by
        by_contra hwraps
        cases op with
        | malloc n =>
          obtain ⟨t', ht', hunsafe⟩ := h.malloc_wraps henv hop.1 hop.2 hwraps
          rw [ht] at ht'
          obtain rfl := Except.ok.inj ht'
          exact hunsafe hsafe.safe
        | free p => exact hwraps trivial
        | realloc p n => exact hwraps trivial
        | write x v => exact hwraps trivial
      obtain ⟨t', ht', hinv⟩ := h.step henv hreal hop hwrap
      refine ⟨hwrap, fun u hu => ?_⟩
      rw [ht'] at ht hu
      obtain rfl := Except.ok.inj ht
      obtain rfl := Except.ok.inj hu
      exact (ih hinv htail (hrest _ ht')).mp hsafe
    · rintro ⟨hwrap, hnext⟩
      obtain ⟨t, ht, hinv⟩ := h.step henv hreal hop hwrap
      exact ⟨h.safe henv, t, ht, (ih hinv htail (hrest t ht)).mpr (hnext t ht)⟩

/-- From the first call on, the heaps are safe as long as no sum wraps, and not longer. -/
theorem alwaysSafe_iff_noWrap (henv : env.Ok) (hops : ∀ op ∈ ops, op.isRealloc = false)
    (hvalid : Along env (fun s op => op.Valid s) env.start ops) :
    AlwaysSafe env env.start ops ↔ Along env NoWrapAt env.start ops :=
  alwaysSafe_iff henv (inv_start henv) hops hvalid

/-! ## A run whose sum wraps -/

/-- The loop ends with a block when there is room for it in the area. -/
lemma Ready.activeLoop_room {s : Manager} {n size fuel : ℕ} {bs : ℕ → List Block} (henv : env.Ok)
    (hsize : size % 8 = 4) (hlt : size ≤ 2 ^ 30 + 8) (hlarge : initialHeapSize < size)
    (hr : Ready env s n bs) (hphase : Phase s n) (hn : s.activeHeap + 1 = n)
    (hroom : env.memoryEnd + (if n = 2 then (s.availableHeaps s.activeHeap).offset else 0)
      + size + 4 + 2 * wasmPageSize ≤ env.limit) (hfuel : env.limit < s.sbrkBytes + fuel) :
    ∃ p s', Manager.activeLoop env size fuel (some s.activeHeap) s = .ok (some p, s') ∧
      s'.activeHeap = 1 ∧ (s'.availableHeaps 1).offset
        = (if n = 2 then (s.availableHeaps s.activeHeap).offset else 0) + size + 4 := by
  induction fuel generalizing s n bs with
  | zero =>
    have hle := hr.sbrk_le
    omega
  | succ fuel ih =>
    have hle := hr.sbrk_le
    have htwo := hr.two
    have hlimit := henv.limit_lt
    have hl := hr.laid s.activeHeap (by omega)
    have hoff := hl.offset_le
    have hinitial : initialHeapSize = 8192 := rfl
    by_cases hfit : (s.availableHeaps s.activeHeap).offset + size + 4
        ≤ (s.availableHeaps s.activeHeap).heapSize
    · have hn2 : n = 2 := by
        by_contra hne
        have hzero : s.activeHeap = 0 := by omega
        have hfirst := hr.first (by omega)
        rw [hzero] at hfit
        omega
      have hactive : s.activeHeap = 1 := by omega
      obtain ⟨m', heq, -⟩ := hl.malloc hsize (by omega) hfit
      refine ⟨_, _, activeLoop_some heq, hactive, ?_⟩
      show (if 1 = s.activeHeap then _ else s.availableHeaps 1).offset = _
      rw [if_pos hactive.symm, if_pos hn2]
    · -- the initial heap ends before the area, the second heap where the area does
      have hbefore : s.sbrkBytes ≤ env.memoryEnd
          + (if n = 2 then (s.availableHeaps s.activeHeap).offset else 0) + size + 4 := by
        by_cases hn2 : n = 2
        · have hactive : s.activeHeap = 1 := by omega
          have hsecond := hr.second (by omega)
          rw [hactive] at hfit ⊢
          rw [if_pos hn2]
          omega
        · have hstart := hr.sbrk_eq (by omega)
          omega
      have hwrap : (s.availableHeaps s.activeHeap).offset + size + 4 < 2 ^ 32 := by
        by_cases hn2 : n = 2
        · rw [if_pos hn2] at hroom
          omega
        · have hzero : s.activeHeap = 0 := by omega
          have hfirst := hr.first (by omega)
          rw [hzero] at hoff ⊢
          omega
      have hnone := malloc_eq_none (m := s.mem) hwrap (by omega)
      obtain ⟨r, s', hnext, n', bs', hr', hphase', -, -, hcase⟩ :=
        hr.nextActiveHeap henv hphase hn (by omega)
      have hloop : Manager.activeLoop env size (fuel + 1) (some s.activeHeap) s
          = Manager.activeLoop env size fuel r s' := by
        rw [Manager.activeLoop, hnone]
        simp only [hnext]
      rw [hloop]
      rcases hcase with ⟨-, -, -, hfails⟩ | ⟨rfl, hn', hn2, hgrow, hoffset⟩
      · omega
      · have hih := ih hr' hphase' hn' (by rw [if_pos hn2, hoffset]; exact hroom) (by omega)
        rwa [if_pos hn2, hoffset] at hih

/-- A call with room puts its block behind the offset of the second heap. -/
lemma Inv.malloc_room {o : ℕ} (henv : env.Ok) (h : Inv env s) (hk : k ≤ 2 ^ 30)
    (hlarge : initialHeapSize < k)
    (hactive : (s.mgr.activeHeap = 0 ∧ o = 0) ∨
      (s.mgr.activeHeap = 1 ∧ 0 < o ∧ (s.mgr.availableHeaps 1).offset = o))
    (hroom : env.memoryEnd + o + Manager.adjustToMemBlock k + 4 + 2 * wasmPageSize ≤ env.limit) :
    ∃ t, s.step env (.malloc k) = .ok t ∧ Inv env t ∧ t.mgr.activeHeap = 1 ∧
      (t.mgr.availableHeaps 1).offset = o + Manager.adjustToMemBlock k + 4 := by
  have hpage : wasmPageSize = 65536 := rfl
  have hlimit := henv.limit_lt
  obtain ⟨hmod, hle, hlt⟩ := adjustToMemBlock_spec (k := k) (by omega)
  have hwrap : NoWrap s.mgr k := by
    by_contra hwraps
    obtain ⟨n, bs, hr, -, -⟩ := h
    have hsecond := hr.second_of_wraps hk hwraps
    unfold NoWrap at hwraps
    rw [hsecond.2] at hwraps hactive
    omega
  -- after the preparation there is an active heap
  obtain ⟨s₁, n₁, bs₁, hprep, hr₁, hphase₁, hn₁, ho⟩ : ∃ s₁ n₁ bs₁,
      s.mgr.prepare env = (some s₁.activeHeap, s₁) ∧ Ready env s₁ n₁ bs₁ ∧ Phase s₁ n₁ ∧
      s₁.activeHeap + 1 = n₁ ∧
      (if n₁ = 2 then (s₁.availableHeaps s₁.activeHeap).offset else 0) = o := by
    obtain ⟨n, bs, hr, hphase, -⟩ := h
    rcases hactive with ⟨hzero, rfl⟩ | ⟨hone, hpos, rfl⟩
    · obtain ⟨r, s₁, n₁, bs₁, hprep, hr₁, hphase₁, -, -, hsame, hcase⟩ := hr.prepare henv hphase
      rcases hcase with ⟨rfl, hn₁, -⟩ | ⟨-, hfull, hpos⟩
      · exact ⟨s₁, n₁, bs₁, hprep, hr₁, hphase₁, hn₁, if_neg (by omega)⟩
      · omega
    · have htwo := hr.two
      have hn : s.mgr.activeHeap + 1 = n := by
        by_contra hne
        rw [hr.empty 1 (by omega)] at hpos
        exact absurd hpos (lt_irrefl 0)
      refine ⟨s.mgr, n, bs, hr.prepare_active hphase hn, hr, hphase, hn, ?_⟩
      rw [if_pos (by omega), hone]
  obtain ⟨t, hstep, hinv⟩ := h.malloc henv (by omega) hk hwrap
  have hstart := hr₁.memoryEnd_le
  obtain ⟨p, s', hloop, hactive', hoffset⟩ := hr₁.activeLoop_room henv hmod (by omega) (by omega)
    hphase₁ hn₁ (by rw [ho]; exact hroom)
    (show env.limit < s₁.sbrkBytes + loopBound by unfold loopBound; omega)
  have hmalloc : s.mgr.malloc env k = .ok (some p, s') := by
    unfold Manager.malloc
    rw [if_neg (by omega), hprep]
    simp only [hloop]
    rfl
  rw [step_malloc hmalloc] at hstep
  obtain rfl := Except.ok.inj hstep
  rw [ho] at hoffset
  exact ⟨_, step_malloc hmalloc, hinv, hactive', hoffset⟩

/-- The area of `sbrk` takes almost all of the address space. -/
def Env.wide : Env where
  initialHeap := 1024
  memoryEnd := 65536
  limit := 2 ^ 32 - 8
  toInt64 p := if p < 2 ^ 31 then p else p - 2 ^ 32

lemma Env.wide_ok : Env.wide.Ok where
  initialHeap_pos := by decide
  apart := by decide
  memoryEnd_mod := rfl
  memoryEnd_le := by decide
  limit_lt := by decide
  toInt64_failure := by decide
  toInt64_area p hp hmod := by
    unfold Env.wide at hp ⊢
    simp only at hp ⊢
    split <;> omega

theorem alwaysSafe_iff_noWrap_wide :
    AlwaysSafe Env.wide Env.wide.start [.malloc 8, .free 1028] ↔
      Along Env.wide NoWrapAt Env.wide.start [.malloc 8, .free 1028] :=
  alwaysSafe_iff_noWrap Env.wide_ok (by decide) (by decide +kernel)

/-- The fourth quarter of the address space is handed out beyond the heap. -/
theorem wide_not_alwaysSafe : ∃ env ops, Env.Ok env ∧ (∀ op ∈ ops, op.isRealloc = false) ∧
    Along env (fun s op => op.Valid s) env.start ops ∧ ¬ AlwaysSafe env env.start ops := by
  have hquarter : Manager.adjustToMemBlock (2 ^ 30 - 4) = 2 ^ 30 - 4 := by decide
  have hlarge : initialHeapSize < 2 ^ 30 - 4 := by decide
  have hvalid : ∀ s, Op.Valid s (.malloc (2 ^ 30 - 4)) := fun _ => ⟨by decide, by decide⟩
  obtain ⟨s₁, hs₁, hinv₁, hactive₁, hoffset₁⟩ := (inv_start Env.wide_ok).malloc_room Env.wide_ok
    (by decide) hlarge (.inl ⟨rfl, rfl⟩) (by decide)
  obtain ⟨s₂, hs₂, hinv₂, hactive₂, hoffset₂⟩ := hinv₁.malloc_room Env.wide_ok
    (by decide) hlarge (.inr ⟨hactive₁, by decide, hoffset₁⟩) (by decide)
  obtain ⟨s₃, hs₃, hinv₃, hactive₃, hoffset₃⟩ := hinv₂.malloc_room Env.wide_ok
    (by decide) hlarge (.inr ⟨hactive₂, by decide, hoffset₂⟩) (by decide)
  have hwraps : ¬ NoWrap s₃.mgr (2 ^ 30 - 4) := by
    unfold NoWrap
    rw [hactive₃, hoffset₃, hquarter]
    decide
  obtain ⟨s₄, hs₄, hunsafe⟩ := hinv₃.malloc_wraps Env.wide_ok (by decide) (by decide) hwraps
  refine ⟨Env.wide, List.replicate 4 (.malloc (2 ^ 30 - 4)), Env.wide_ok, ?_, ?_, ?_⟩
  · exact fun op hop => by rw [List.eq_of_mem_replicate hop]; rfl
  · exact ⟨hvalid _, fun _ _ => ⟨hvalid _, fun _ _ => ⟨hvalid _, fun _ _ => ⟨hvalid _,
      fun _ _ => trivial⟩⟩⟩⟩
  · rintro ⟨-, t₁, ht₁, -, t₂, ht₂, -, t₃, ht₃, -, t₄, ht₄, hsafe⟩
    rw [hs₁] at ht₁
    obtain rfl := Except.ok.inj ht₁
    rw [hs₂] at ht₂
    obtain rfl := Except.ok.inj ht₂
    rw [hs₃] at ht₃
    obtain rfl := Except.ok.inj ht₃
    rw [hs₄] at ht₄
    obtain rfl := Except.ok.inj ht₄
    exact hunsafe hsafe

end UosioCdt.Malloc
