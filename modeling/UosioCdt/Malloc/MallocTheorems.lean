import UosioCdt.Malloc.Ready

/-!
# `malloc` and `free` keep the heaps tiled

One lemma for each part of the call: the next active heap, the loop over the active heaps, and the
loop over the heaps with freed blocks.
-/

namespace UosioCdt.Malloc

open Tiling

variable {env : Env} {s : Manager} {n i size : ℕ} {bs : ℕ → List Block}

/-! ## Sizes -/

lemma adjustToMemBlock_spec {k : ℕ} (hlt : k ≤ 2 ^ 30 + 4) :
    Manager.adjustToMemBlock k % 8 = 4 ∧ k ≤ Manager.adjustToMemBlock k ∧ Manager.adjustToMemBlock k < k + 8 := by
  unfold Manager.adjustToMemBlock wrap sizeMarker
  simp only
  split <;> omega

lemma adjustToMemBlock_self {k : ℕ} (hk : k % 8 = 4) : Manager.adjustToMemBlock k = k := by
  unfold Manager.adjustToMemBlock wrap sizeMarker
  simp only
  rw [if_neg (by omega)]

lemma heapAdj_spec {k : ℕ} (hk : k % 8 = 0) (hlt : k < 2 ^ 32) :
    Manager.heapAdj k % 8 = 0 ∧ 0 < Manager.heapAdj k ∧ Manager.heapAdj k ≤ 2 * wasmPageSize := by
  unfold Manager.heapAdj diff wrap wasmPageSize
  split <;> omega

/-! ## `sbrk` -/

lemma Ready.congr (hr : Ready env s n bs) {s' : Manager} (hmem : s'.mem = s.mem)
    (hheaps : s'.availableHeaps = s.availableHeaps) (hsbrk : s'.sbrkBytes = s.sbrkBytes) :
    Ready env s' n bs := by
  obtain ⟨mem, sbrkBytes, heaps, actual, active, free⟩ := s
  obtain ⟨mem', sbrkBytes', heaps', actual', active', free'⟩ := s'
  obtain rfl : mem' = mem := hmem
  obtain rfl : heaps' = heaps := hheaps
  obtain rfl : sbrkBytes' = sbrkBytes := hsbrk
  exact ⟨hr.laid, hr.empty, hr.two, hr.first, hr.second, hr.sbrk_eq, hr.sbrk_mod, hr.memoryEnd_le,
    hr.sbrk_le, hr.zero, hr.zero_initial⟩

lemma Ready.sbrk_zero (hr : Ready env s n bs) : s.sbrk env 0 = (s.sbrkBytes, s) := by
  have hle := hr.sbrk_le
  unfold Manager.sbrk
  rw [show wrap (0 + 7) / 8 * 8 = 0 from rfl]
  exact if_pos hle

lemma sbrk_rounded (s : Manager) (env : Env) {k : ℕ} (hmod : k % 8 = 0) (hlt : k ≤ 2 * wasmPageSize) :
    s.sbrk env k = if s.sbrkBytes + k ≤ env.limit then
      (s.sbrkBytes, { s with sbrkBytes := s.sbrkBytes + k }) else (2 ^ 32 - 1, s) := by
  have hround : wrap (k + 7) / 8 * 8 = k := by
    unfold wrap
    unfold wasmPageSize at hlt
    omega
  unfold Manager.sbrk
  rw [hround]

/-! ## `next_active_heap` -/

/-- The active heap is filled with a freed block. -/
lemma Ready.retireActive (henv : env.Ok) (hr : Ready env s n bs) (hn : s.activeHeap + 1 = n)
    (hfull : FullBut s n s.activeHeap)
    (hrest : (s.availableHeaps s.activeHeap).heapSize - (s.availableHeaps s.activeHeap).offset
      < 2 ^ 31) :
    ∃ bs', Ready env s.retireActive n bs' ∧ (∀ b, UsedIn n bs' b ↔ UsedIn n bs b) ∧
      KeepsIn s.mem s.retireActive.mem n bs ∧ FullBut s.retireActive n n ∧
      s.retireActive.activeHeap = n ∧ s.retireActive.sbrkBytes = s.sbrkBytes ∧
      s.retireActive.heapsActualSize = s.heapsActualSize ∧
      s.retireActive.activeFreeHeap = s.activeFreeHeap := by
  have hi : s.activeHeap < n := by omega
  obtain ⟨bs', m', heq, hl, hused, hout⟩ := (hr.laid _ hi).cleanupRemaining hrest
  have hret : s.retireActive = { s.setHeap s.activeHeap { s.availableHeaps s.activeHeap with
      offset := (s.availableHeaps s.activeHeap).heapSize } with
        mem := m', activeHeap := s.activeHeap + 1 } := by
    unfold Manager.retireActive
    rw [heq]
  have houtside : ∀ x, x < (s.availableHeaps s.activeHeap).heap ∨
      (s.availableHeaps s.activeHeap).heap + (s.availableHeaps s.activeHeap).heapSize ≤ x →
        m' x = s.mem x := fun x hx => hout x (by omega)
  have hup := hr.update henv hi hl rfl rfl houtside
  have hgives : GivesIn n bs n (setBlocks bs s.activeHeap bs') 0 none :=
    hr.givesIn henv hi hl rfl rfl hused
  rw [hret]
  refine ⟨_, hup.congr rfl rfl rfl, hgives, hr.keepsIn henv hi ?_ houtside, ?_, hn, rfl, rfl, rfl⟩
  · intro b hb x hx hlt
    have hin := (hr.laid _ hi).block_in hb.1
    exact hout x (by omega)
  · intro j hj _
    show (if j = s.activeHeap then _ else s.availableHeaps j).offset
      = (if j = s.activeHeap then _ else s.availableHeaps j).heapSize
    by_cases hji : j = s.activeHeap
    · rw [if_pos hji]
    · rw [if_neg hji]
      exact hfull j hj hji

lemma Phase.active_fields (hphase : Phase s n) (hn : s.activeHeap + 1 = n) :
    s.heapsActualSize = heapsSize ∧ s.activeFreeHeap = 0 ∧ FullBut s n s.activeHeap := by
  cases hphase with
  | fresh hzero => omega
  | active _ hactual hfree hfull => exact ⟨hactual, hfree, hfull⟩
  | exhausted hactive => omega

lemma Phase.exhausted_fields (hphase : Phase s n) (hactive : s.activeHeap = n) (hn : 0 < n) :
    s.heapsActualSize = n ∧ s.activeFreeHeap < n ∧ FullBut s n n := by
  cases hphase with
  | fresh hzero => omega
  | active hone => omega
  | exhausted _ hactual hfree hfull => exact ⟨hactual, hfree, hfull⟩

/-- What `next_active_heap` does: the state keeps its used blocks, and either all heaps are full or
there is more memory, behind the active heap or in a new one. -/
def NextHeap (env : Env) (s : Manager) (n : ℕ) (bs : ℕ → List Block) (r : Option ℕ)
    (s' : Manager) : Prop :=
  ∃ n' bs', Ready env s' n' bs' ∧ Phase s' n' ∧ (∀ b, UsedIn n' bs' b ↔ UsedIn n bs b) ∧
    KeepsIn s.mem s'.mem n bs ∧
    ((r = none ∧ s'.activeHeap = n' ∧ 0 < n' ∧ env.limit < s.sbrkBytes + 2 * wasmPageSize) ∨
      (r = some s'.activeHeap ∧ s'.activeHeap + 1 = n' ∧ n' = 2 ∧ s.sbrkBytes < s'.sbrkBytes ∧
        (s'.availableHeaps s'.activeHeap).offset =
          if n = 2 then (s.availableHeaps s.activeHeap).offset else 0))

/-- More memory behind the second heap. -/
lemma Ready.expandActive (hr : Ready env s 2 bs) (hn : s.activeHeap + 1 = 2) {k : ℕ}
    (hmod : k % 8 = 0) (hend : s.sbrkBytes + k ≤ env.limit) (hlimit : env.limit < 2 ^ 32) :
    ∃ h, (s.availableHeaps s.activeHeap).expandMemory s.sbrkBytes k = some h ∧
      h.offset = (s.availableHeaps s.activeHeap).offset ∧
      Ready env { s.setHeap s.activeHeap h with sbrkBytes := s.sbrkBytes + k } 2 bs := by
  have h1 : s.activeHeap = 1 := by omega
  have hsbrk := hr.sbrk_mod
  obtain ⟨hstart, hstop⟩ := hr.second (by omega)
  have hl := hr.laid 1 (by omega)
  have hat : (s.availableHeaps 1).heap + (s.availableHeaps 1).heapSize = s.sbrkBytes := by omega
  obtain ⟨heq, hl'⟩ := hl.expandMemory hmod (by omega) fun x hx _ => hr.zero x (by omega)
  rw [hat] at heq
  rw [h1]
  refine ⟨_, heq, rfl, ?_⟩
  have h0 : ∀ j < 2, j ≠ 1 → j = 0 := by omega
  constructor
  case laid =>
    intro j hj
    show Laid s.mem (if j = 1 then _ else s.availableHeaps j) (bs j)
    by_cases hj1 : j = 1
    · rw [if_pos hj1, hj1]
      exact hl'
    · rw [if_neg hj1]
      exact hr.laid j hj
  case empty =>
    intro j hj
    show (if j = 1 then _ else s.availableHeaps j) = Heap.empty
    rw [if_neg (by omega)]
    exact hr.empty j hj
  case two => exact le_rfl
  case first => exact fun hn => hr.first hn
  case second =>
    intro _
    refine ⟨hstart, ?_⟩
    show env.memoryEnd + ((s.availableHeaps 1).heapSize + k) = s.sbrkBytes + k
    omega
  case sbrk_eq => exact fun hle => absurd hle (by omega)
  case sbrk_mod =>
    show (s.sbrkBytes + k) % 8 = 0
    omega
  case memoryEnd_le => exact le_trans hr.memoryEnd_le (Nat.le_add_right _ _)
  case sbrk_le => exact hend
  case zero =>
    intro x hx
    change s.sbrkBytes + k ≤ x at hx
    exact hr.zero x (by omega)
  case zero_initial => exact fun hzero => absurd hzero (by omega)

/-- The second heap, at the start of the area. -/
lemma Ready.newHeap (henv : env.Ok) (hr : Ready env s 1 bs) {k : ℕ} (hmod : k % 8 = 0)
    (hpos : 0 < k) (hend : s.sbrkBytes + k ≤ env.limit) :
    Ready env { s.setHeap 1 ((s.availableHeaps 1).init s.sbrkBytes k) with
      sbrkBytes := s.sbrkBytes + k } 2 (setBlocks bs 1 []) := by
  have hlimit := henv.limit_lt
  have hapart := henv.apart
  have hsbrk := hr.sbrk_mod
  have hstart := hr.sbrk_eq le_rfl
  have hlaid := laid_init (m := s.mem) s.sbrkBytes k (by omega) hmod hpos (by omega)
    fun x hx _ => hr.zero x hx
  rw [← hr.empty 1 le_rfl] at hlaid
  constructor
  case laid =>
    intro j hj
    show Laid s.mem (if j = 1 then _ else s.availableHeaps j) (if j = 1 then [] else bs j)
    by_cases hj1 : j = 1
    · rw [if_pos hj1, if_pos hj1]
      exact hlaid
    · rw [if_neg hj1, if_neg hj1]
      exact hr.laid j (by omega)
  case empty =>
    intro j hj
    show (if j = 1 then _ else s.availableHeaps j) = Heap.empty
    rw [if_neg (by omega)]
    exact hr.empty j (by omega)
  case two => exact le_rfl
  case first => exact fun _ => hr.first (by omega)
  case second =>
    intro _
    show s.sbrkBytes = env.memoryEnd ∧ env.memoryEnd + k = s.sbrkBytes + k
    omega
  case sbrk_eq => exact fun hle => absurd hle (by omega)
  case sbrk_mod =>
    show (s.sbrkBytes + k) % 8 = 0
    omega
  case memoryEnd_le => exact le_trans hr.memoryEnd_le (Nat.le_add_right _ _)
  case sbrk_le => exact hend
  case zero =>
    intro x hx
    change s.sbrkBytes + k ≤ x at hx
    exact hr.zero x (by omega)
  case zero_initial => exact fun hzero => absurd hzero (by omega)

/-- A new heap without blocks does not change the used blocks. -/
lemma usedIn_newHeap {b : Block} : UsedIn 2 (setBlocks bs 1 []) b ↔ UsedIn 1 bs b := by
  unfold UsedIn setBlocks
  constructor
  · rintro ⟨j, hj, hb⟩
    by_cases hj1 : j = 1
    · rw [if_pos hj1] at hb
      exact absurd hb.1 List.not_mem_nil
    · rw [if_neg hj1] at hb
      exact ⟨j, by omega, hb⟩
  · rintro ⟨j, hj, hb⟩
    exact ⟨j, by omega, by rwa [if_neg (by omega)]⟩

/-- The initial heap is not adjacent to the area. -/
lemma Ready.expandMemory_initial (henv : env.Ok) (hr : Ready env s 1 bs) (k : ℕ) :
    (s.availableHeaps 0).expandMemory s.sbrkBytes k = none := by
  have hapart := henv.apart
  have hstart := hr.sbrk_eq le_rfl
  obtain ⟨hheap, hsize⟩ := hr.first (by omega)
  unfold Heap.expandMemory
  rw [(hr.laid 0 (by omega)).heapEnd_eq, if_pos (by omega)]

section next

variable {k : ℕ} (henv : env.Ok) (hr : Ready env s n bs) (hk : Manager.heapAdj s.sbrkBytes = k)
include henv hr hk

/-- The request that `next_active_heap` makes. -/
lemma Ready.request : k % 8 = 0 ∧ 0 < k ∧ s.sbrk env k = if s.sbrkBytes + k ≤ env.limit then
    (s.sbrkBytes, { s with sbrkBytes := s.sbrkBytes + k }) else (2 ^ 32 - 1, s) := by
  have hlimit := henv.limit_lt
  have hle := hr.sbrk_le
  obtain ⟨hmod, hpos, hadj⟩ := heapAdj_spec hr.sbrk_mod (by omega)
  rw [hk] at hmod hpos hadj
  exact ⟨hmod, hpos, sbrk_rounded s env hmod hadj⟩

lemma Ready.nextActiveHeap_fails (hfail : ¬ s.sbrkBytes + k ≤ env.limit) :
    s.nextActiveHeap env
      = (none, { s.retireActive with heapsActualSize := s.retireActive.activeHeap }) := by
  obtain ⟨-, -, hgrow⟩ := hr.request henv hk
  rw [if_neg hfail] at hgrow
  have hnonneg : ¬ (s.sbrkBytes : ℤ) < 0 := by omega
  unfold Manager.nextActiveHeap
  simp only [hr.sbrk_zero, if_neg hnonneg, hk, hgrow, if_pos henv.toInt64_failure]

lemma Ready.nextActiveHeap_expands (hroom : s.sbrkBytes + k ≤ env.limit) {h : Heap}
    (hexp : (s.availableHeaps s.activeHeap).expandMemory s.sbrkBytes k = some h) :
    s.nextActiveHeap env = (some s.activeHeap,
      { s.setHeap s.activeHeap h with sbrkBytes := s.sbrkBytes + k }) := by
  obtain ⟨-, -, hgrow⟩ := hr.request henv hk
  rw [if_pos hroom] at hgrow
  have hnonneg : ¬ (s.sbrkBytes : ℤ) < 0 := by omega
  have hvalid := henv.toInt64_area s.sbrkBytes hr.sbrk_le hr.sbrk_mod
  unfold Manager.nextActiveHeap
  simp only [hr.sbrk_zero, if_neg hnonneg, hk, hgrow, if_neg hvalid, hexp]
  rfl

lemma Ready.nextActiveHeap_new (hroom : s.sbrkBytes + k ≤ env.limit)
    (hexp : (s.availableHeaps s.activeHeap).expandMemory s.sbrkBytes k = none) :
    s.nextActiveHeap env = (some s.retireActive.activeHeap,
      { s.retireActive.setHeap s.retireActive.activeHeap
          ((s.retireActive.availableHeaps s.retireActive.activeHeap).init s.sbrkBytes k) with
        sbrkBytes := s.sbrkBytes + k }) := by
  obtain ⟨-, -, hgrow⟩ := hr.request henv hk
  rw [if_pos hroom] at hgrow
  have hnonneg : ¬ (s.sbrkBytes : ℤ) < 0 := by omega
  have hvalid := henv.toInt64_area s.sbrkBytes hr.sbrk_le hr.sbrk_mod
  unfold Manager.nextActiveHeap
  simp only [hr.sbrk_zero, if_neg hnonneg, hk, hgrow, if_neg hvalid, hexp]
  rfl

end next

/-- `next_active_heap` keeps the heaps tiled. -/
theorem Ready.nextActiveHeap (henv : env.Ok) (hr : Ready env s n bs) (hphase : Phase s n)
    (hn : s.activeHeap + 1 = n)
    (hrest : (s.availableHeaps s.activeHeap).heapSize - (s.availableHeaps s.activeHeap).offset
      < 2 ^ 31) :
    ∃ r s', s.nextActiveHeap env = (r, s') ∧ NextHeap env s n bs r s' := by
  obtain ⟨hactual, hfree, hfull⟩ := hphase.active_fields hn
  have htwo := hr.two
  have hlimit := henv.limit_lt
  have hsbrk := hr.sbrk_le
  obtain ⟨hmod, hpos, hadj⟩ := heapAdj_spec hr.sbrk_mod (by omega)
  obtain ⟨bs', hr', hused, hkeep, hfull', hactive, hsbrk', hactual', hfree'⟩ :=
    hr.retireActive henv hn hfull hrest
  by_cases hroom : s.sbrkBytes + Manager.heapAdj s.sbrkBytes ≤ env.limit
  · rcases (by omega : n = 2 ∨ n = 1) with rfl | rfl
    · -- the second heap grows
      obtain ⟨h, hexp, hoffset, hready⟩ := hr.expandActive hn hmod hroom henv.limit_lt
      refine ⟨_, _, hr.nextActiveHeap_expands henv rfl hroom hexp, 2, bs, hready, ?_,
        fun b => Iff.rfl, fun _ _ _ _ _ => rfl, .inr ⟨rfl, hn, rfl, ?_, ?_⟩⟩
      · refine .active hn hactual hfree fun j hj hji => ?_
        change j ≠ s.activeHeap at hji
        show (if j = s.activeHeap then h else s.availableHeaps j).offset
          = (if j = s.activeHeap then h else s.availableHeaps j).heapSize
        rw [if_neg hji]
        exact hfull j hj hji
      · show s.sbrkBytes < s.sbrkBytes + _
        omega
      · show (if s.activeHeap = s.activeHeap then h else _).offset = _
        rw [if_pos rfl, hoffset, if_pos rfl]
    · -- the initial heap is closed and the second heap begins
      have h0 : s.activeHeap = 0 := by omega
      have hexp := hr.expandMemory_initial henv (Manager.heapAdj s.sbrkBytes)
      rw [← h0] at hexp
      rw [← hsbrk'] at hroom
      have hnew := hr'.newHeap henv hmod hpos hroom
      rw [hsbrk'] at hroom hnew
      have heq := hr.nextActiveHeap_new henv rfl hroom hexp
      rw [hactive] at heq
      have hempty : (s.retireActive.availableHeaps 1).offset = 0 := by
        rw [hr'.empty 1 le_rfl]
        rfl
      refine ⟨_, _, heq, 2, setBlocks bs' 1 [], hnew, ?_, fun b => ?_, hkeep,
        .inr ⟨?_, ?_, rfl, ?_, ?_⟩⟩
      · refine .active (by show s.retireActive.activeHeap + 1 = 2; omega)
          (hactual'.trans hactual) (hfree'.trans hfree) fun j hj hji => ?_
        change j ≠ s.retireActive.activeHeap at hji
        show (if j = 1 then _ else s.retireActive.availableHeaps j).offset
          = (if j = 1 then _ else s.retireActive.availableHeaps j).heapSize
        rw [if_neg (by omega)]
        exact hfull' j (by omega) (by omega)
      · rw [usedIn_newHeap, hused b]
      · show some 1 = some s.retireActive.activeHeap
        rw [hactive]
      · show s.retireActive.activeHeap + 1 = 2
        omega
      · show s.sbrkBytes < s.sbrkBytes + _
        omega
      · show (if s.retireActive.activeHeap = 1 then Heap.init (s.retireActive.availableHeaps 1) _ _
          else _).offset = _
        rw [if_pos hactive, if_neg (by omega)]
        exact hempty
  · -- `sbrk` fails: the rest of the active heap becomes a freed block
    refine ⟨_, _, hr.nextActiveHeap_fails henv rfl hroom, n, bs', hr'.congr rfl rfl rfl, ?_, hused,
      hkeep, .inl ⟨rfl, hactive, by omega, by omega⟩⟩
    have hlt : s.retireActive.activeFreeHeap < n := by omega
    exact .exhausted hactive hactive hlt hfull'

/-! ## The loop over the active heaps -/

/-- What a part of `malloc` does to the state. -/
structure Allocates (env : Env) (s : Manager) (n : ℕ) (bs : ℕ → List Block) (size : ℕ)
    (res : Option ℕ × Manager) (n' : ℕ) (bs' : ℕ → List Block) : Prop where
  ready : Ready env res.2 n' bs'
  phase : Phase res.2 n'
  gives : GivesIn n bs n' bs' size res.1
  keeps : KeepsIn s.mem res.2.mem n bs

/-- The part goes on in a state with the same used blocks. -/
lemma Allocates.of_same {s' : Manager} {n' n'' : ℕ} {bs' bs'' : ℕ → List Block}
    {res : Option ℕ × Manager} (h : Allocates env s' n' bs' size res n'' bs'')
    (hused : ∀ b, UsedIn n' bs' b ↔ UsedIn n bs b) (hkeep : KeepsIn s.mem s'.mem n bs) :
    Allocates env s n bs size res n'' bs'' := by
  refine ⟨h.ready, h.phase, ?_, ?_⟩
  · have hgives := h.gives
    obtain ⟨r, s''⟩ := res
    cases r with
    | none => exact fun b => (hgives b).trans (hused b)
    | some p =>
      obtain ⟨d, hptr, hd, hnew, hiff⟩ := hgives
      refine ⟨d, hptr, hd, fun hold => hnew ((hused d).mpr hold), fun b => ?_⟩
      rw [hiff b, hused b]
  · intro b hb x hx hlt
    rw [h.keeps b ((hused b).mpr hb) x hx hlt, hkeep b hb x hx hlt]

/-- A round in which the heap has room. -/
lemma activeLoop_some {p fuel : ℕ} {h : Heap} {m : Mem}
    (heq : (s.availableHeaps i).malloc s.mem size = some (p, h, m)) :
    Manager.activeLoop env size (fuel + 1) (some i) s
      = .ok (some p, { s.setHeap i h with mem := m }) := by
  rw [Manager.activeLoop, heq]

/-- The active heap has room. -/
lemma Ready.activeLoop_fits (henv : env.Ok) (hr : Ready env s n bs) (hphase : Phase s n)
    (hn : s.activeHeap + 1 = n) (hsize : size % 8 = 4) (hlt : size < 2 ^ 31)
    (hfit : (s.availableHeaps s.activeHeap).offset + size + 4
      ≤ (s.availableHeaps s.activeHeap).heapSize) (fuel : ℕ) :
    ∃ p s' bs', Manager.activeLoop env size (fuel + 1) (some s.activeHeap) s = .ok (some p, s') ∧
      Allocates env s n bs size (some p, s') n bs' := by
  obtain ⟨hactual, hfree, hfull⟩ := hphase.active_fields hn
  have hi : s.activeHeap < n := by omega
  have hl := hr.laid _ hi
  have hoff := hl.offset_le
  obtain ⟨m', heq, hl', hframe⟩ := hl.malloc hsize hlt hfit
  have hout : ∀ x, x < (s.availableHeaps s.activeHeap).heap ∨
      (s.availableHeaps s.activeHeap).heap + (s.availableHeaps s.activeHeap).heapSize ≤ x →
        m' x = s.mem x := fun x hx => hframe x (by omega)
  have hnew : ¬ Used (bs s.activeHeap) ⟨(s.availableHeaps s.activeHeap).heap
      + (s.availableHeaps s.activeHeap).offset + 4, size, true⟩ := by
    intro hold
    have hin := hl.block_in hold.1
    unfold Block.stop at hin
    simp only at hin
    omega
  have hgives := gives_append rfl hnew
  refine ⟨_, _, _, activeLoop_some heq, hr.update henv hi hl' rfl rfl hout, ?_,
    hr.givesIn henv hi hl' rfl rfl hgives, hr.keepsIn henv hi ?_ hout⟩
  · refine .active hn hactual hfree fun j hj hji => ?_
    change j ≠ s.activeHeap at hji
    show (if j = s.activeHeap then _ else s.availableHeaps j).offset
      = (if j = s.activeHeap then _ else s.availableHeaps j).heapSize
    rw [if_neg hji]
    exact hfull j hj hji
  · intro b hb x hx hlt
    have hin := hl.block_in hb.1
    exact hframe x (by omega)

/-- The loop ends, with a block or with full heaps only. Every round hands out more memory. -/
lemma Ready.activeLoop (henv : env.Ok) (hsize : size % 8 = 4) (hlt : size ≤ 2 ^ 30 + 8) {fuel : ℕ}
    (hr : Ready env s n bs) (hphase : Phase s n) (hn : s.activeHeap + 1 = n)
    (hwrap : (s.availableHeaps s.activeHeap).offset + size + 4 < 2 ^ 32)
    (hfuel : env.limit < s.sbrkBytes + fuel) :
    ∃ res n' bs', Manager.activeLoop env size fuel (some s.activeHeap) s = .ok res ∧
      Allocates env s n bs size res n' bs' ∧ (res.1 = none → res.2.activeHeap = n' ∧ 0 < n') := by
  induction fuel generalizing s n bs with
  | zero =>
    have hle := hr.sbrk_le
    omega
  | succ fuel ih =>
    have hle := hr.sbrk_le
    by_cases hfit : (s.availableHeaps s.activeHeap).offset + size + 4
        ≤ (s.availableHeaps s.activeHeap).heapSize
    · obtain ⟨p, s', bs', heq, halloc⟩ :=
        hr.activeLoop_fits henv hphase hn hsize (by omega) hfit fuel
      exact ⟨_, n, bs', heq, halloc, fun h => absurd h (Option.some_ne_none p)⟩
    · -- the rest is smaller than the request, and the next heap is tried
      have hnone := malloc_eq_none (m := s.mem) hwrap (by omega)
      obtain ⟨r, s', hnext, n', bs', hr', hphase', hused, hkeep, hcase⟩ :=
        hr.nextActiveHeap henv hphase hn (by omega)
      have hloop : Manager.activeLoop env size (fuel + 1) (some s.activeHeap) s
          = Manager.activeLoop env size fuel r s' := by
        rw [Manager.activeLoop, hnone]
        simp only [hnext]
      rw [hloop]
      rcases hcase with ⟨rfl, hfull, hpos, -⟩ | ⟨rfl, hn', -, hgrow, hoffset⟩
      · refine ⟨(none, s'), n', bs', ?_, ⟨hr', hphase', hused, hkeep⟩, fun _ => ⟨hfull, hpos⟩⟩
        cases fuel <;> rfl
      · have hle : (s'.availableHeaps s'.activeHeap).offset ≤ (s.availableHeaps s.activeHeap).offset := by
          rw [hoffset]
          split <;> omega
        obtain ⟨res, n'', bs'', heq, halloc, hnone'⟩ := ih hr' hphase' hn' (by omega) (by omega)
        exact ⟨res, n'', bs'', heq, halloc.of_same hused hkeep, hnone'⟩

/-! ## The loop over the heaps with freed blocks -/

/-- `malloc_from_freed` in a heap of the manager. -/
lemma Ready.mallocFromFreed (henv : env.Ok) (hr : Ready env s n bs) (hi : i < n)
    (hfull : (s.availableHeaps i).offset = (s.availableHeaps i).heapSize) (hsize : size % 8 = 4)
    (hlt : size < 2 ^ 31) :
    ∃ r m' bs', (s.availableHeaps i).mallocFromFreed s.mem size = .ok (r, m') ∧
      Ready env { s with mem := m' } n bs' ∧ GivesIn n bs n bs' size r ∧
      KeepsIn s.mem m' n bs := by
  obtain ⟨⟨r, m'⟩, heq, bs', hl, hgives, hkeep, hout⟩ :=
    (hr.laid i hi).mallocFromFreed hfull hsize hlt
  have hup := hr.update henv hi hl rfl rfl hout
  rw [setHeap_self] at hup
  exact ⟨r, m', setBlocks bs i bs', heq, hup, hr.givesIn henv hi hl rfl rfl hgives,
    hr.keepsIn henv hi hkeep hout⟩

/-- The rounds that are left when the loop is at heap `i` and started at heap `k`. -/
def roundsLeft (n i k : ℕ) : ℕ := if i < k then k - i else k + n - i

lemma roundsLeft_next {i k : ℕ} (hi : i < n) (hk : k < n)
    (hend : (if i + 1 = n then 0 else i + 1) ≠ k) :
    roundsLeft n (if i + 1 = n then 0 else i + 1) k + 1 = roundsLeft n i k := by
  unfold roundsLeft
  by_cases hlast : i + 1 = n
  · rw [if_pos hlast] at hend ⊢
    rw [if_pos (by omega), if_neg (by omega)]
    omega
  · rw [if_neg hlast] at hend ⊢
    by_cases hik : i < k
    · rw [if_pos hik, if_pos (by omega)]
      omega
    · rw [if_neg hik, if_neg (by omega)]
      omega

/-- The loop visits every heap at most once. -/
lemma Ready.freedHeapsLoop (henv : env.Ok) (hsize : size % 8 = 4) (hlt : size < 2 ^ 31) {k fuel : ℕ}
    (hr : Ready env s n bs) (hactive : s.activeHeap = n) (hactual : s.heapsActualSize = n)
    (hfree : s.activeFreeHeap < n) (hfull : FullBut s n n) (hk : k < n)
    (hfuel : roundsLeft n s.activeFreeHeap k ≤ fuel) :
    ∃ res bs', Manager.freedHeapsLoop size k fuel s = .ok res ∧
      Allocates env s n bs size res n bs' := by
  induction fuel generalizing s bs with
  | zero =>
    unfold roundsLeft at hfuel
    split at hfuel <;> omega
  | succ fuel ih =>
    obtain ⟨r, m', bs', heq, hr', hgives, hkeep⟩ :=
      hr.mallocFromFreed henv hfree (hfull _ hfree (by omega)) hsize hlt
    rw [Manager.freedHeapsLoop, heq]
    cases r with
    | some p =>
      exact ⟨_, bs', rfl, hr', .exhausted hactive hactual hfree hfull, hgives, hkeep⟩
    | none =>
      -- on to the next heap, in a state with the same used blocks
      have hnext : (if s.activeFreeHeap + 1 = s.heapsActualSize then 0 else s.activeFreeHeap + 1)
          < n := by
        split <;> omega
      simp only [bind, Except.bind, Option.isSome_none, Bool.false_eq_true, if_false]
      by_cases hend : (if s.activeFreeHeap + 1 = s.heapsActualSize then 0
          else s.activeFreeHeap + 1) = k
      · rw [if_neg (not_not.mpr hend)]
        exact ⟨_, bs', rfl, hr'.congr rfl rfl rfl, .exhausted hactive hactual hnext hfull, hgives,
          hkeep⟩
      · rw [if_pos hend]
        have hr'' : Ready env { s with mem := m', activeFreeHeap :=
            if s.activeFreeHeap + 1 = s.heapsActualSize then 0 else s.activeFreeHeap + 1 } n bs' :=
          hr'.congr rfl rfl rfl
        rw [hactual] at hend
        have hleft := roundsLeft_next hfree hk hend
        have hleft' : roundsLeft n (if s.activeFreeHeap + 1 = s.heapsActualSize then 0
            else s.activeFreeHeap + 1) k ≤ fuel := by
          rw [hactual]
          omega
        obtain ⟨res, bs'', hloop, halloc⟩ := ih hr'' hactive hactual hnext hfull hleft'
        exact ⟨res, bs'', hloop, halloc.of_same hgives hkeep⟩

/-! ## `malloc` -/

/-- With an active heap, nothing is set. -/
lemma Ready.prepare_active (hr : Ready env s n bs) (hphase : Phase s n)
    (hn : s.activeHeap + 1 = n) : s.prepare env = (some s.activeHeap, s) := by
  obtain ⟨hactual, -⟩ := hphase.active_fields hn
  have htwo := hr.two
  have hinit : (s.availableHeaps s.activeHeap).isInit = true := by
    have hpos := (hr.laid s.activeHeap (by omega)).heap_pos
    exact decide_eq_true (by omega)
  have hsize : heapsSize = 16 := rfl
  have hne : ¬ s.heapsActualSize = 0 := by omega
  have hlt : s.activeHeap < s.heapsActualSize := by omega
  unfold Manager.prepare
  simp only [if_neg hne, if_pos hlt, hinit, not_true_eq_false, and_false, if_false]

/-- A manager that has not been called yet gets the initial heap. -/
lemma Ready.prepare_fresh (hr : Ready env s 0 bs) (hactual : s.heapsActualSize = 0)
    (hactive : s.activeHeap = 0) : s.prepare env = (some 0, Manager.setHeap
      { s with heapsActualSize := heapsSize } 0 (Heap.empty.init env.initialHeap initialHeapSize)) := by
  have hempty := hr.empty 0 le_rfl
  have hnot : ¬ (s.availableHeaps s.activeHeap).isInit = true := by
    rw [hactive, hempty]
    decide
  have hlt : s.activeHeap < heapsSize := by
    rw [hactive]
    decide
  unfold Manager.prepare
  simp only [if_pos hactual, if_pos hlt]
  rw [if_pos ⟨hactive, hnot⟩, hactive, hempty]

/-- Without an active heap, nothing is set. -/
lemma prepare_exhausted (hactive : s.activeHeap = n) (hactual : s.heapsActualSize = n) (hn : 0 < n) :
    s.prepare env = (none, s) := by
  have hne : ¬ s.heapsActualSize = 0 := by omega
  have hlt : ¬ s.activeHeap < s.heapsActualSize := by omega
  unfold Manager.prepare
  simp only [if_neg hne, if_neg hlt]

/-- The initial heap is tiled by no blocks. -/
lemma Ready.initialHeap (henv : env.Ok) (hr : Ready env s 0 bs) :
    Ready env (Manager.setHeap { s with heapsActualSize := heapsSize } 0
      (Heap.empty.init env.initialHeap initialHeapSize)) 1 fun _ => [] := by
  have hlimit := henv.limit_lt
  have hapart := henv.apart
  have hend := henv.memoryEnd_le
  have hsize : initialHeapSize = 8192 := rfl
  have hmod := henv.memoryEnd_mod
  constructor
  case laid =>
    intro j hj
    obtain rfl : j = 0 := by omega
    exact laid_init (m := s.mem) env.initialHeap initialHeapSize henv.initialHeap_pos rfl (by decide)
      (by omega) (hr.zero_initial rfl)
  case empty =>
    intro j hj
    show (if j = 0 then _ else s.availableHeaps j) = Heap.empty
    rw [if_neg (by omega)]
    exact hr.empty j (Nat.zero_le _)
  case two => exact one_le_two
  case first => exact fun _ => ⟨rfl, rfl⟩
  case second => exact fun h => absurd h (lt_irrefl 1)
  case sbrk_eq => exact fun _ => hr.sbrk_eq (Nat.zero_le _)
  case sbrk_mod => exact hr.sbrk_mod
  case memoryEnd_le => exact hr.memoryEnd_le
  case sbrk_le => exact hr.sbrk_le
  case zero => exact hr.zero
  case zero_initial => exact fun h => absurd h one_ne_zero

/-- The first call initialises the initial heap; otherwise nothing changes. -/
lemma Ready.prepare (henv : env.Ok) (hr : Ready env s n bs) (hphase : Phase s n) :
    ∃ r s' n' bs', s.prepare env = (r, s') ∧ Ready env s' n' bs' ∧ Phase s' n' ∧
      (∀ b, UsedIn n' bs' b ↔ UsedIn n bs b) ∧ s'.mem = s.mem ∧ s'.activeHeap = s.activeHeap ∧
      ((r = some s'.activeHeap ∧ s'.activeHeap + 1 = n' ∧
          (s'.availableHeaps s'.activeHeap).offset = (s.availableHeaps s.activeHeap).offset) ∨
        (r = none ∧ s'.activeHeap = n' ∧ 0 < n')) := by
  cases hphase with
  | fresh hn hactual hactive hfree =>
    subst hn
    have hnone : ∀ b, UsedIn 1 (fun _ => []) b ↔ UsedIn 0 bs b := by
      intro b
      unfold UsedIn
      constructor
      · rintro ⟨j, -, hb⟩
        exact absurd hb.1 List.not_mem_nil
      · rintro ⟨j, hj, -⟩
        exact absurd hj (Nat.not_lt_zero j)
    refine ⟨_, _, 1, _, hr.prepare_fresh hactual hactive, hr.initialHeap henv, ?_, hnone, rfl, rfl,
      .inl ⟨?_, ?_, ?_⟩⟩
    · refine .active ?_ rfl hfree fun j hj hj0 => ?_
      · exact congrArg (· + 1) hactive
      · change j ≠ s.activeHeap at hj0
        omega
    · exact congrArg some hactive.symm
    · exact congrArg (· + 1) hactive
    · rw [hactive, hr.empty 0 le_rfl]
      rfl
  | active hn hactual hfree hfull =>
    have hprep := hr.prepare_active (.active hn hactual hfree hfull) hn
    exact ⟨_, _, n, bs, hprep, hr, .active hn hactual hfree hfull, fun b => Iff.rfl, rfl, rfl,
      .inl ⟨rfl, hn, rfl⟩⟩
  | exhausted hactive hactual hfree hfull =>
    have htwo := hr.two
    have hprep : s.prepare env = (none, s) := prepare_exhausted hactive hactual (by omega)
    exact ⟨_, _, n, bs, hprep, hr, .exhausted hactive hactual hfree hfull, fun b => Iff.rfl, rfl, rfl,
      .inr ⟨rfl, hactive, by omega⟩⟩

/-- The used size in the active heap is a 32-bit number. -/
def NoWrap (s : Manager) (k : ℕ) : Prop :=
  (s.availableHeaps s.activeHeap).offset + Manager.adjustToMemBlock k + 4 < 2 ^ 32

/-- `malloc` ends, no check fires, and the heaps stay tiled. -/
theorem Ready.malloc (henv : env.Ok) (hr : Ready env s n bs) (hphase : Phase s n) {k : ℕ}
    (hpos : 0 < k) (hk : k ≤ 2 ^ 30 + 4) (hwrap : NoWrap s k) :
    ∃ res n' bs', s.malloc env k = .ok res ∧
      Allocates env s n bs (Manager.adjustToMemBlock k) res n' bs' := by
  obtain ⟨hsize, -, hlt⟩ := adjustToMemBlock_spec hk
  obtain ⟨r, s₁, n₁, bs₁, hprep, hr₁, hphase₁, hused₁, hmem, -, hcase⟩ := hr.prepare henv hphase
  have hlimit := henv.limit_lt
  -- the loop over the active heaps
  obtain ⟨res, n₂, bs₂, hloop, halloc, hfull⟩ : ∃ res n₂ bs₂,
      Manager.activeLoop env (Manager.adjustToMemBlock k) loopBound r s₁ = .ok res ∧
      Allocates env s n bs (Manager.adjustToMemBlock k) res n₂ bs₂ ∧
      (res.1 = none → res.2.activeHeap = n₂ ∧ 0 < n₂) := by
    have hkeep : KeepsIn s.mem s₁.mem n bs := fun _ _ x _ _ => by rw [hmem]
    rcases hcase with ⟨rfl, hn₁, hoffset⟩ | ⟨rfl, hfull₁, hpos₁⟩
    · unfold NoWrap at hwrap
      rw [← hoffset] at hwrap
      obtain ⟨res, n₂, bs₂, hloop, halloc, hfull⟩ := hr₁.activeLoop henv hsize (by omega) hphase₁
        hn₁ hwrap (show env.limit < s₁.sbrkBytes + loopBound by unfold loopBound; omega)
      exact ⟨res, n₂, bs₂, hloop, halloc.of_same hused₁ hkeep, hfull⟩
    · exact ⟨(none, s₁), n₁, bs₁, rfl, ⟨hr₁, hphase₁, hused₁, hkeep⟩, fun _ => ⟨hfull₁, hpos₁⟩⟩
  obtain ⟨r₂, s₂⟩ := res
  have hmalloc : s.malloc env k = if r₂.isNone then
      Manager.freedHeapsLoop (Manager.adjustToMemBlock k) s₂.activeFreeHeap loopBound s₂
      else .ok (r₂, s₂) := by
    unfold Manager.malloc
    rw [if_neg (by omega), hprep]
    simp only [hloop]
    rfl
  rw [hmalloc]
  cases r₂ with
  | some p => exact ⟨_, n₂, bs₂, rfl, halloc⟩
  | none =>
    -- all heaps are full: freed blocks are looked for
    simp only [Option.isNone_none, if_true]
    obtain ⟨hactive, hpos₂⟩ := hfull rfl
    change s₂.activeHeap = n₂ at hactive
    obtain ⟨hactual, hfree, hfull'⟩ := halloc.phase.exhausted_fields hactive hpos₂
    have hleft : roundsLeft n₂ s₂.activeFreeHeap s₂.activeFreeHeap ≤ loopBound := by
      have htwo := halloc.ready.two
      unfold roundsLeft loopBound
      rw [if_neg (lt_irrefl _)]
      omega
    obtain ⟨res, bs₃, heq, halloc'⟩ := halloc.ready.freedHeapsLoop henv hsize (by omega) hactive
      hactual hfree hfull' hfree hleft
    exact ⟨res, n₂, bs₃, heq, halloc'.of_same halloc.gives halloc.keeps⟩

/-! ## `free` -/

/-- The blocks beside a block are others. -/
lemma ne_of_beside {xs ys : List Block} {b c : Block} {tag : ℕ → Bool × ℕ} {a e : ℕ}
    (ht : Tiled tag 4 a (xs ++ b :: ys) e) (hc : c ∈ xs ∨ c ∈ ys) : c ≠ b := by
  rintro rfl
  obtain ⟨p, hxs, hptr, -, hys⟩ := tiled_append.mp ht
  have hstop : c.ptr ≤ c.stop := Nat.le_add_right _ _
  rcases hc with hc | hc
  · have hbd := hxs.bounds hc
    omega
  · have hbd := hys.bounds hc
    omega

/-- A block that is marked as free is no longer used. -/
lemma used_freed {xs ys : List Block} {b c : Block} {tag : ℕ → Bool × ℕ} {a e : ℕ}
    (ht : Tiled tag 4 a (xs ++ b :: ys) e) (hused : b.used = true) :
    Used (xs ++ { b with used := false } :: ys) c ↔ Used (xs ++ b :: ys) c ∧ c ≠ b := by
  have hmid : ∀ d ∈ [{ b with used := false }], d.used = false := by simp
  have hfreed := used_middle (b := c) xs ys hmid
  have hbefore := used_insert (b := c) xs ys hused fun e (he : e ∈ []) =>
    absurd he List.not_mem_nil
  rw [List.append_assoc, List.singleton_append] at hfreed
  rw [List.append_assoc, List.cons_append, List.nil_append] at hbefore
  have hsame : Used xs c ∨ Used ys c → c ≠ b := fun hc =>
    ne_of_beside ht (hc.imp And.left And.left)
  rw [hfreed, hbefore]
  constructor
  · exact fun hc => ⟨.inl hc, hsame hc⟩
  · rintro ⟨hc | rfl, hne⟩
    · exact hc
    · exact absurd rfl hne

lemma Phase.congr {s' : Manager} (hphase : Phase s n)
    (hheaps : s'.availableHeaps = s.availableHeaps) (hactual : s'.heapsActualSize = s.heapsActualSize)
    (hactive : s'.activeHeap = s.activeHeap) (hfree : s'.activeFreeHeap = s.activeFreeHeap) :
    Phase s' n := by
  have hfull (i : ℕ) (h : FullBut s n i) : FullBut s' n i := by
    intro j hj hji
    rw [hheaps]
    exact h j hj hji
  cases hphase with
  | fresh h₁ h₂ h₃ h₄ =>
    exact .fresh h₁ (hactual.trans h₂) (hactive.trans h₃) (hfree.trans h₄)
  | active h₁ h₂ h₃ h₄ =>
    rw [← hactive] at h₁ h₄
    exact .active h₁ (hactual.trans h₂) (hfree.trans h₃) (hfull _ h₄)
  | exhausted h₁ h₂ h₃ h₄ =>
    rw [← hfree] at h₃
    exact .exhausted (hactive.trans h₁) (hactual.trans h₂) h₃ (hfull _ h₄)

/-- The heaps that are searched are those that are initialised. -/
lemma Phase.le_actual (hphase : Phase s n) (htwo : n ≤ 2) : n ≤ s.heapsActualSize := by
  cases hphase with
  | fresh hzero => omega
  | active _ hactual =>
    rw [hactual]
    exact le_trans htwo (by decide)
  | exhausted _ hactual => omega

/-- `free` of a used block marks it. -/
lemma Ready.free_eq (henv : env.Ok) (hr : Ready env s n bs) (hphase : Phase s n) (hi : i < n)
    {b : Block} (hb : b ∈ bs i) : s.free b.ptr = { s with mem := Heap.free s.mem b.ptr } := by
  have hin := (hr.laid i hi).block_in hb
  have hsize := (hr.laid i hi).sizes b hb
  have hfind := hr.findHeap henv (hphase.le_actual hr.two) hi hb (by omega)
  unfold Manager.free
  rw [if_neg (by omega), hfind]

/-- `free` changes nothing else. -/
theorem Ready.free (henv : env.Ok) (hr : Ready env s n bs) (hphase : Phase s n) {b : Block}
    (hb : UsedIn n bs b) :
    ∃ bs', Ready env (s.free b.ptr) n bs' ∧ Phase (s.free b.ptr) n ∧
      (∀ c, UsedIn n bs' c ↔ UsedIn n bs c ∧ c ≠ b) ∧
      ∀ x, x < b.ptr - 4 ∨ b.ptr ≤ x → (s.free b.ptr).mem x = s.mem x := by
  obtain ⟨i, hi, hmem, hused⟩ := hb
  rw [hr.free_eq henv hphase hi hmem]
  have hl := hr.laid i hi
  have hin := hl.block_in hmem
  obtain ⟨xs, ys, hsplit⟩ := List.append_of_mem hmem
  rw [hsplit] at hl
  obtain ⟨hl', hframe⟩ := hl.free
  generalize Heap.free s.mem b.ptr = m' at hl' hframe ⊢
  have hstop : b.ptr ≤ b.stop := Nat.le_add_right _ _
  have hup := hr.update henv hi hl' rfl rfl fun x hx => hframe x (by omega)
  rw [setHeap_self] at hup
  refine ⟨_, hup, hphase.congr rfl rfl rfl rfl, fun c => ?_, hframe⟩
  rw [usedIn_setBlocks hi, usedIn_iff hi, hsplit, used_freed hl.tiled hused, or_and_right]
  refine or_congr_right (Iff.symm (and_iff_left_of_imp ?_))
  rintro ⟨j, hj, hji, hc⟩ rfl
  have hapart := hr.heaps_apart henv hi hj (Ne.symm hji)
  have hcin := (hr.laid j hj).block_in hc.1
  omega

end UosioCdt.Malloc
