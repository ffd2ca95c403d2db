import UosioCdt.Malloc.FreedTheorems
import UosioCdt.Malloc.Manager
import Mathlib.Data.List.Basic

/-!
# The state of the memory manager

`Ready env s n bs`: the first `n` heaps are initialised and tiled by the blocks `bs 0`, `bs 1`; the
first is the initial heap and the second the area of `sbrk`.
-/

namespace UosioCdt.Malloc

open Tiling

/-- The initial heap and the area of `sbrk` are apart, and a failure of `sbrk` is recognised. -/
structure Env.Ok (env : Env) : Prop where
  initialHeap_pos : 0 < env.initialHeap
  apart : env.initialHeap + initialHeapSize < env.memoryEnd
  memoryEnd_mod : env.memoryEnd % 8 = 0
  memoryEnd_le : env.memoryEnd ≤ env.limit
  limit_lt : env.limit < 2 ^ 32
  toInt64_failure : env.toInt64 (2 ^ 32 - 1) = -1
  toInt64_area : ∀ p ≤ env.limit, p % 8 = 0 → env.toInt64 p ≠ -1

/-- The heaps that are initialised, and the memory that `sbrk` has not handed out. -/
structure Ready (env : Env) (s : Manager) (n : ℕ) (bs : ℕ → List Block) : Prop where
  laid : ∀ i < n, Laid s.mem (s.availableHeaps i) (bs i)
  empty : ∀ i, n ≤ i → s.availableHeaps i = .empty
  two : n ≤ 2
  first : 0 < n → (s.availableHeaps 0).heap = env.initialHeap ∧
    (s.availableHeaps 0).heapSize = initialHeapSize
  second : 1 < n → (s.availableHeaps 1).heap = env.memoryEnd ∧
    env.memoryEnd + (s.availableHeaps 1).heapSize = s.sbrkBytes
  sbrk_eq : n ≤ 1 → s.sbrkBytes = env.memoryEnd
  sbrk_mod : s.sbrkBytes % 8 = 0
  memoryEnd_le : env.memoryEnd ≤ s.sbrkBytes
  sbrk_le : s.sbrkBytes ≤ env.limit
  zero : ∀ x, s.sbrkBytes ≤ x → s.mem x = 0
  zero_initial : n = 0 → ∀ x, env.initialHeap ≤ x → x < env.initialHeap + initialHeapSize →
    s.mem x = 0

/-- Every heap but `i` is full. -/
def FullBut (s : Manager) (n i : ℕ) : Prop :=
  ∀ j < n, j ≠ i → (s.availableHeaps j).offset = (s.availableHeaps j).heapSize

/-- How far the manager is: before the first call, with an active heap, or with full heaps only. -/
inductive Phase (s : Manager) (n : ℕ) : Prop
  | fresh (hn : n = 0) (hactual : s.heapsActualSize = 0) (hactive : s.activeHeap = 0)
      (hfree : s.activeFreeHeap = 0)
  | active (hn : s.activeHeap + 1 = n) (hactual : s.heapsActualSize = heapsSize)
      (hfree : s.activeFreeHeap = 0) (hfull : FullBut s n s.activeHeap)
  | exhausted (hactive : s.activeHeap = n) (hactual : s.heapsActualSize = n)
      (hfree : s.activeFreeHeap < n) (hfull : FullBut s n n)

/-- The block is a used one of a heap. -/
def UsedIn (n : ℕ) (bs : ℕ → List Block) (b : Block) : Prop := ∃ i < n, Used (bs i) b

/-- `Gives`, over all heaps. -/
def GivesIn (n : ℕ) (bs : ℕ → List Block) (n' : ℕ) (bs' : ℕ → List Block) (size : ℕ) :
    Option ℕ → Prop
  | none => ∀ b, UsedIn n' bs' b ↔ UsedIn n bs b
  | some p => ∃ d : Block, d.ptr = p ∧ d.size = size ∧ ¬ UsedIn n bs d ∧
      ∀ b, UsedIn n' bs' b ↔ UsedIn n bs b ∨ b = d

/-- `KeepsUsed`, over all heaps. -/
def KeepsIn (m m' : Mem) (n : ℕ) (bs : ℕ → List Block) : Prop :=
  ∀ b, UsedIn n bs b → ∀ x, b.ptr ≤ x → x < b.stop → m' x = m x

section ready

variable {env : Env} {s : Manager} {n i j : ℕ} {bs : ℕ → List Block} {b c : Block}

/-- A block lies in its heap. -/
lemma Laid.block_in {m : Mem} {h : Heap} {bs : List Block} (hl : Laid m h bs) (hb : b ∈ bs) :
    h.heap + 4 ≤ b.ptr ∧ b.stop ≤ h.heap + h.offset ∧ h.heap + h.offset ≤ h.heap + h.heapSize := by
  have hbd := hl.tiled.bounds hb
  have hoff := hl.offset_le
  omega

/-- The heaps do not overlap. -/
lemma Ready.heaps_apart (henv : env.Ok) (hr : Ready env s n bs) (hi : i < n) (hj : j < n)
    (hne : i ≠ j) :
    (s.availableHeaps i).heap + (s.availableHeaps i).heapSize ≤ (s.availableHeaps j).heap ∨
      (s.availableHeaps j).heap + (s.availableHeaps j).heapSize ≤ (s.availableHeaps i).heap := by
  have htwo := hr.two
  have hapart := henv.apart
  have hfirst := hr.first (by omega)
  have hsecond := hr.second (by omega)
  rcases (by omega : (i = 0 ∧ j = 1) ∨ (i = 1 ∧ j = 0)) with ⟨rfl, rfl⟩ | ⟨rfl, rfl⟩
  · rw [hfirst.1, hfirst.2, hsecond.1]
    omega
  · rw [hfirst.1, hfirst.2, hsecond.1]
    omega

/-- The heaps lie below the end of the area. -/
lemma Ready.heap_le (henv : env.Ok) (hr : Ready env s n bs) (hi : i < n) :
    (s.availableHeaps i).heap + (s.availableHeaps i).heapSize ≤ s.sbrkBytes := by
  have htwo := hr.two
  have hapart := henv.apart
  have hle := hr.memoryEnd_le
  rcases (by omega : i = 0 ∨ i = 1) with rfl | rfl
  · have hfirst := hr.first hi
    omega
  · have hsecond := hr.second hi
    omega

/-- Two used blocks of the manager do not overlap. -/
lemma Ready.blocks_apart (henv : env.Ok) (hr : Ready env s n bs) (hb : UsedIn n bs b)
    (hc : UsedIn n bs c) (hne : b ≠ c) : b.stop + 4 ≤ c.ptr ∨ c.stop + 4 ≤ b.ptr := by
  obtain ⟨i, hi, hb, -⟩ := hb
  obtain ⟨j, hj, hc, -⟩ := hc
  by_cases hij : i = j
  · subst hij
    exact (hr.laid i hi).tiled.apart hb hc hne
  · have hapart := hr.heaps_apart henv hi hj hij
    have hbin := (hr.laid i hi).block_in hb
    have hcin := (hr.laid j hj).block_in hc
    omega

lemma Ready.eq_of_ptr_eq (henv : env.Ok) (hr : Ready env s n bs) (hb : UsedIn n bs b)
    (hc : UsedIn n bs c) (hptr : b.ptr = c.ptr) : b = c := by
  by_contra hne
  have hapart := hr.blocks_apart henv hb hc hne
  unfold Block.stop at hapart
  omega

/-! ## One heap changes -/

variable {h' : Heap} {m' : Mem} {bs' : List Block}

/-- The blocks of one heap are replaced. -/
def setBlocks (bs : ℕ → List Block) (i : ℕ) (bs' : List Block) : ℕ → List Block :=
  fun j => if j = i then bs' else bs j

lemma setBlocks_self (bs : ℕ → List Block) (i : ℕ) : setBlocks bs i (bs i) = bs := by
  funext j
  unfold setBlocks
  split
  · rename_i hj
    rw [hj]
  · rfl

lemma usedIn_setBlocks (hi : i < n) :
    UsedIn n (setBlocks bs i bs') b ↔ Used bs' b ∨ ∃ j < n, j ≠ i ∧ Used (bs j) b := by
  unfold UsedIn setBlocks
  constructor
  · rintro ⟨j, hj, hb⟩
    by_cases hji : j = i
    · rw [if_pos hji] at hb
      exact .inl hb
    · rw [if_neg hji] at hb
      exact .inr ⟨j, hj, hji, hb⟩
  · rintro (hb | ⟨j, hj, hji, hb⟩)
    · exact ⟨i, hi, by rwa [if_pos rfl]⟩
    · exact ⟨j, hj, by rwa [if_neg hji]⟩

lemma usedIn_iff (hi : i < n) :
    UsedIn n bs b ↔ Used (bs i) b ∨ ∃ j < n, j ≠ i ∧ Used (bs j) b := by
  rw [← usedIn_setBlocks hi, setBlocks_self]

/-- A heap of the same size takes the place of heap `i`. -/
lemma Ready.update (henv : env.Ok) (hr : Ready env s n bs) (hi : i < n) (hl : Laid m' h' bs')
    (hheap : h'.heap = (s.availableHeaps i).heap)
    (hsize : h'.heapSize = (s.availableHeaps i).heapSize)
    (hout : ∀ x, x < h'.heap ∨ h'.heap + h'.heapSize ≤ x → m' x = s.mem x) :
    Ready env { s.setHeap i h' with mem := m' } n (setBlocks bs i bs') where
  laid j hj := by
    show Laid m' (if j = i then h' else s.availableHeaps j) (if j = i then bs' else bs j)
    by_cases hji : j = i
    · rw [if_pos hji, if_pos hji]
      exact hl
    · rw [if_neg hji, if_neg hji]
      have hapart := hr.heaps_apart henv hi hj (Ne.symm hji)
      exact (hr.laid j hj).congr fun x hx hlt => hout x (by omega)
  empty j hj := by
    show (if j = i then h' else s.availableHeaps j) = .empty
    rw [if_neg (by omega)]
    exact hr.empty j hj
  two := hr.two
  first hn := by
    show (if 0 = i then h' else _).heap = _ ∧ (if 0 = i then h' else _).heapSize = _
    by_cases h0 : 0 = i
    · subst h0
      rw [if_pos rfl, hheap, hsize]
      exact hr.first hn
    · rw [if_neg h0]
      exact hr.first hn
  second hn := by
    show (if 1 = i then h' else _).heap = _ ∧ _ + (if 1 = i then h' else _).heapSize = _
    by_cases h1 : 1 = i
    · subst h1
      rw [if_pos rfl, hheap, hsize]
      exact hr.second hn
    · rw [if_neg h1]
      exact hr.second hn
  sbrk_eq := hr.sbrk_eq
  sbrk_mod := hr.sbrk_mod
  memoryEnd_le := hr.memoryEnd_le
  sbrk_le := hr.sbrk_le
  zero x hx := by
    have hle := hr.heap_le henv hi
    change s.sbrkBytes ≤ x at hx
    rw [← hr.zero x hx]
    exact hout x (by omega)
  zero_initial hn := by omega

/-- A block that is new in its heap is new. -/
lemma Ready.givesIn (henv : env.Ok) (hr : Ready env s n bs) (hi : i < n) (hl : Laid m' h' bs')
    (hheap : h'.heap = (s.availableHeaps i).heap)
    (hsize : h'.heapSize = (s.availableHeaps i).heapSize) {size : ℕ} {r : Option ℕ}
    (hg : Gives (bs i) bs' size r) : GivesIn n bs n (setBlocks bs i bs') size r := by
  cases r with
  | none =>
    intro b
    rw [usedIn_setBlocks hi, usedIn_iff hi, hg b]
  | some p =>
    obtain ⟨d, hptr, hd, hnew, hiff⟩ := hg
    refine ⟨d, hptr, hd, ?_, fun b => ?_⟩
    · rw [usedIn_iff hi]
      rintro (hold | ⟨j, hj, hji, hold⟩)
      · exact hnew hold
      · have hapart := hr.heaps_apart henv hi hj (Ne.symm hji)
        have hin := hl.block_in ((hiff d).mpr (.inr rfl)).1
        have hin' := (hr.laid j hj).block_in hold.1
        have hstop : d.ptr ≤ d.stop := Nat.le_add_right _ _
        omega
    · rw [usedIn_setBlocks hi, usedIn_iff hi, hiff b, or_right_comm]

/-- Writes inside heap `i` keep the used payloads of the others. -/
lemma Ready.keepsIn (henv : env.Ok) (hr : Ready env s n bs) (hi : i < n)
    (hkeep : KeepsUsed s.mem m' (bs i))
    (hout : ∀ x, x < (s.availableHeaps i).heap ∨
      (s.availableHeaps i).heap + (s.availableHeaps i).heapSize ≤ x → m' x = s.mem x) :
    KeepsIn s.mem m' n bs := by
  intro b hb x hx hlt
  rcases (usedIn_iff hi).mp hb with hb | ⟨j, hj, hji, hb⟩
  · exact hkeep b hb x hx hlt
  · have hapart := hr.heaps_apart henv hi hj (Ne.symm hji)
    have hin := (hr.laid j hj).block_in hb.1
    exact hout x (by omega)

lemma setHeap_self (s : Manager) (i : ℕ) : s.setHeap i (s.availableHeaps i) = s := by
  have hsame : (fun j => if j = i then s.availableHeaps i else s.availableHeaps j)
      = s.availableHeaps := by
    funext j
    split
    · rename_i hj
      rw [hj]
    · rfl
  unfold Manager.setHeap
  rw [hsame]

/-- Writes inside the payload of a used block leave the state ready. -/
lemma Ready.congr_payload (henv : env.Ok) (hr : Ready env s n bs) (hb : UsedIn n bs b)
    (hframe : ∀ x, x < b.ptr ∨ b.stop ≤ x → m' x = s.mem x) :
    Ready env { s with mem := m' } n bs := by
  obtain ⟨i, hi, hb, -⟩ := hb
  have hin := (hr.laid i hi).block_in hb
  have hl := (hr.laid i hi).congr_payload hb hframe
  have hup := hr.update henv hi hl rfl rfl fun x hx => hframe x (by omega)
  rwa [setHeap_self, setBlocks_self] at hup

/-! ## The heap of a pointer -/

lemma takeWhile_range {p : ℕ → Bool} {k : ℕ} (hk : n ≤ k) (hp : ∀ i < n, p i = true)
    (hn : p n = false) : (List.range k).takeWhile p = List.range n := by
  obtain ⟨l, rfl⟩ := Nat.exists_eq_add_of_le hk
  have hall : ∀ i ∈ List.range n, p i = true := fun i hi => hp i (List.mem_range.mp hi)
  rw [List.range_add, List.takeWhile_append_of_pos hall]
  cases l with
  | zero => simp
  | succ l => rw [List.range_succ_eq_map]; simp [hn]

/-- The loop finds the heap of a block. -/
lemma Ready.findHeap (henv : env.Ok) (hr : Ready env s n bs) (hn : n ≤ s.heapsActualSize)
    (hi : i < n) (hb : b ∈ bs i) (hpos : 0 < b.size) : s.findHeap b.ptr = some i := by
  have hinit : (List.range s.heapsActualSize).takeWhile (fun i => (s.availableHeaps i).isInit)
      = List.range n := by
    refine takeWhile_range hn (fun j hj => ?_) ?_
    · have hheap := (hr.laid j hj).heap_pos
      exact decide_eq_true (by omega)
    · rw [hr.empty n le_rfl]
      rfl
  have hin (j : ℕ) (hj : j < n) : (s.availableHeaps j).isInHeap b.ptr = true ↔ j = i := by
    have hend := (hr.laid j hj).end_lt
    have hfirst : wrap ((s.availableHeaps j).heap + sizeMarker) = (s.availableHeaps j).heap + 4 := by
      unfold wrap sizeMarker
      omega
    have hbin := (hr.laid i hi).block_in hb
    unfold Block.stop at hbin
    unfold Heap.isInHeap
    rw [decide_eq_true_iff, (hr.laid j hj).heapEnd_eq, hfirst]
    constructor
    · intro h
      by_contra hne
      have hapart := hr.heaps_apart henv hj hi hne
      omega
    · rintro rfl
      omega
  unfold Manager.findHeap
  rw [hinit, List.find?_range_eq_some]
  refine ⟨(hin i hi).mpr rfl, List.mem_range.mpr hi, fun j hj => ?_⟩
  rw [Bool.not_eq_true', Bool.eq_false_iff]
  exact fun h => absurd ((hin j (by omega)).mp h) (by omega)

end ready

end UosioCdt.Malloc
