import UosioCdt.Malloc.MallocTheorems

/-!
# Runs of a program that allocates

A program calls `malloc`, `free` and `realloc` and writes into the blocks that it holds. After every
run whose requests do not wrap the offset of the active heap, the heaps are tiled and the blocks
of the program are safe.
-/

namespace UosioCdt.Malloc

open Tiling

/-! ## The program -/

/-- A block that the program holds: its pointer, and the size that was requested. -/
structure Alloc where
  ptr : ℕ
  len : ℕ
deriving DecidableEq, Repr

/-- The memory manager, and the blocks that the program holds. -/
structure St where
  mgr : Manager
  live : List Alloc

inductive Op where
  | malloc (n : ℕ)
  | free (p : ℕ)
  | realloc (p n : ℕ)
  | write (a : ℕ) (v : UInt8)
deriving DecidableEq

namespace St

/-- The blocks apart from the one at `p`. -/
def without (s : St) (p : ℕ) : List Alloc := s.live.filter fun a => a.ptr ≠ p

/-- The result of `malloc(n)`. -/
def malloced (s : St) (n : ℕ) : Option ℕ × Manager → St
  | (some p, mgr) => ⟨mgr, ⟨p, n⟩ :: s.live⟩
  | (none, mgr) => ⟨mgr, s.live⟩

/-- The result of `realloc(p, n)`: without a new block, the old one stays. -/
def realloced (s : St) (p n : ℕ) : Option ℕ × Manager → St
  | (some q, mgr) => ⟨mgr, ⟨q, n⟩ :: s.without p⟩
  | (none, mgr) => ⟨mgr, s.live⟩

def written (s : St) (a : ℕ) (v : UInt8) : St :=
  { s with mgr := { s.mgr with mem := fun x => if x = a then v else s.mgr.mem x } }

def step (env : Env) (s : St) : Op → Except Fault St
  | .malloc n => return s.malloced n (← s.mgr.malloc env n)
  | .free p => return ⟨s.mgr.free p, s.without p⟩
  | .realloc p n => return s.realloced p n (← s.mgr.realloc env p n)
  | .write a v => return s.written a v

def run (env : Env) : St → List Op → Except Fault St
  | s, [] => .ok s
  | s, op :: ops => do
    let s ← s.step env op
    run env s ops

end St

/-- The state before the first call. -/
def Env.start (env : Env) : St := ⟨env.initial, []⟩

/-- The pointers are live, the sizes are from 1 to 2^30, and writes go into live blocks. -/
def Op.Valid (s : St) : Op → Prop
  | .malloc n => 0 < n ∧ n ≤ 2 ^ 30
  | .free p => ∃ a ∈ s.live, a.ptr = p
  | .realloc p n => (∃ a ∈ s.live, a.ptr = p) ∧ 0 < n ∧ n ≤ 2 ^ 30
  | .write x _ => ∃ a ∈ s.live, a.ptr ≤ x ∧ x < a.ptr + a.len

instance (s : St) : (op : Op) → Decidable (op.Valid s)
  | .malloc n => inferInstanceAs (Decidable (0 < n ∧ n ≤ 2 ^ 30))
  | .free p => inferInstanceAs (Decidable (∃ a ∈ s.live, a.ptr = p))
  | .realloc p n => inferInstanceAs (Decidable ((∃ a ∈ s.live, a.ptr = p) ∧ 0 < n ∧ n ≤ 2 ^ 30))
  | .write x _ => inferInstanceAs (Decidable (∃ a ∈ s.live, a.ptr ≤ x ∧ x < a.ptr + a.len))

def Op.isRealloc : Op → Bool
  | .realloc .. => true
  | _ => false

/-- A condition on the state before every step of a run. -/
def Along (env : Env) (P : St → Op → Prop) : St → List Op → Prop
  | _, [] => True
  | s, op :: ops => P s op ∧ ∀ t, s.step env op = .ok t → Along env P t ops

/-- What is asked of the state after a step is decided by taking the step. -/
instance decidableAfter {α β : Type} (P : β → Prop) [DecidablePred P] :
    (r : Except α β) → Decidable (∀ t, r = .ok t → P t)
  | .ok t => decidable_of_iff (P t) ⟨fun h _ ht => Except.ok.inj ht ▸ h, fun h => h t rfl⟩
  | .error _ => .isTrue fun _ ht => by cases ht

instance Along.decidable (env : Env) (P : St → Op → Prop) [∀ s op, Decidable (P s op)] :
    (ops : List Op) → (s : St) → Decidable (Along env P s ops)
  | [], _ => .isTrue trivial
  | op :: ops, s =>
    have := Along.decidable env P ops
    inferInstanceAs (Decidable (P s op ∧ ∀ t, s.step env op = .ok t → Along env P t ops))

/-- The used size that `malloc` computes in the active heap is a 32-bit number. -/
def NoWrapAt (s : St) : Op → Prop
  | .malloc n => NoWrap s.mgr n
  | _ => True

/-! ## Safety -/

/-- The heaps are tiled by blocks, of which those of the program are the allocated ones, and the
blocks of the program overlap neither each other nor a size word. -/
structure SafeWith (s : St) (bs : ℕ → List Block) : Prop where
  tiled : ∀ i, (s.mgr.availableHeaps i).isInit →
    Tiled (tag s.mgr.mem) 4 (s.mgr.availableHeaps i).heap (bs i)
      ((s.mgr.availableHeaps i).heap + (s.mgr.availableHeaps i).offset)
  sizes : ∀ i, (s.mgr.availableHeaps i).isInit → ∀ b ∈ bs i, b.size % 8 = 4
  marked : ∀ p, (∃ i, (s.mgr.availableHeaps i).isInit ∧ ∃ b ∈ bs i, b.used ∧ b.ptr = p) ↔
    ∃ a ∈ s.live, a.ptr = p
  inside : ∀ a ∈ s.live, ∃ i, (s.mgr.availableHeaps i).isInit ∧
    (s.mgr.availableHeaps i).heap ≤ a.ptr ∧
    a.ptr + a.len ≤ (s.mgr.availableHeaps i).heap + (s.mgr.availableHeaps i).heapSize
  apart : s.live.Pairwise fun a c => a.ptr + a.len ≤ c.ptr ∨ c.ptr + c.len ≤ a.ptr
  headers : ∀ a ∈ s.live, ∀ i, (s.mgr.availableHeaps i).isInit → ∀ b ∈ bs i,
    a.ptr + a.len + 4 ≤ b.ptr ∨ b.ptr ≤ a.ptr

def Safe (s : St) : Prop := ∃ bs, SafeWith s bs

/-! ## The invariant -/

/-- The live blocks are the used ones. -/
structure Tracks (live : List Alloc) (n : ℕ) (bs : ℕ → List Block) : Prop where
  used : ∀ a ∈ live, ∃ b, UsedIn n bs b ∧ b.ptr = a.ptr ∧ a.len ≤ b.size
  complete : ∀ b, UsedIn n bs b → ∃ a ∈ live, a.ptr = b.ptr
  nodup : (live.map Alloc.ptr).Nodup

structure InvWith (env : Env) (s : St) (n : ℕ) (bs : ℕ → List Block) : Prop where
  ready : Ready env s.mgr n bs
  phase : Phase s.mgr n
  tracks : Tracks s.live n bs

def Inv (env : Env) (s : St) : Prop := ∃ n bs, InvWith env s n bs

variable {env : Env} {s : St} {n k p : ℕ} {bs : ℕ → List Block}

lemma inv_start (henv : env.Ok) : Inv env env.start := by
  refine ⟨0, fun _ => [], ?_, .fresh rfl rfl rfl rfl, ?_⟩
  · constructor
    case laid => exact fun _ h => absurd h (Nat.not_lt_zero _)
    case empty => exact fun _ _ => rfl
    case two => exact Nat.zero_le _
    case first => exact fun h => absurd h (lt_irrefl _)
    case second => exact fun h => absurd h (Nat.not_lt_zero _)
    case sbrk_eq => exact fun _ => rfl
    case sbrk_mod => exact henv.memoryEnd_mod
    case memoryEnd_le => exact le_rfl
    case sbrk_le => exact henv.memoryEnd_le
    case zero => exact fun _ _ => rfl
    case zero_initial => exact fun _ _ _ _ => rfl
  · constructor
    case used => exact fun _ h => absurd h List.not_mem_nil
    case complete => exact fun b ⟨i, hi, _⟩ => absurd hi (Nat.not_lt_zero _)
    case nodup => exact List.nodup_nil

/-- The heaps that are initialised are the first `n`. -/
lemma Ready.isInit_iff (hr : Ready env s.mgr n bs) (i : ℕ) :
    (s.mgr.availableHeaps i).isInit = true ↔ i < n := by
  unfold Heap.isInit
  rw [decide_eq_true_iff]
  constructor
  · intro h
    by_contra hge
    rw [hr.empty i (by omega)] at h
    exact h rfl
  · intro h
    have hpos := (hr.laid i h).heap_pos
    omega

/-- The invariant says that the blocks of the program are safe. -/
theorem Inv.safe (henv : env.Ok) (h : Inv env s) : Safe s := by
  obtain ⟨n, bs, hr, -, ht⟩ := h
  refine ⟨bs, ?_⟩
  constructor
  case tiled => exact fun i hi => (hr.laid i ((hr.isInit_iff i).mp hi)).tiled
  case sizes => exact fun i hi => (hr.laid i ((hr.isInit_iff i).mp hi)).sizes
  case marked =>
    intro p
    constructor
    · rintro ⟨i, hi, b, hb, hused, rfl⟩
      exact ht.complete b ⟨i, (hr.isInit_iff i).mp hi, hb, hused⟩
    · rintro ⟨a, ha, rfl⟩
      obtain ⟨b, ⟨i, hi, hb, hused⟩, hptr, -⟩ := ht.used a ha
      exact ⟨i, (hr.isInit_iff i).mpr hi, b, hb, hused, hptr⟩
  case inside =>
    intro a ha
    obtain ⟨b, ⟨i, hi, hb, -⟩, hptr, hlen⟩ := ht.used a ha
    have hin := (hr.laid i hi).block_in hb
    unfold Block.stop at hin
    exact ⟨i, (hr.isInit_iff i).mpr hi, by omega, by omega⟩
  case apart =>
    have hnodup := ht.nodup
    rw [List.Nodup, List.pairwise_map] at hnodup
    refine hnodup.imp_of_mem fun {a c} ha hc hne => ?_
    obtain ⟨b, hb, hbptr, hblen⟩ := ht.used a ha
    obtain ⟨d, hd, hdptr, hdlen⟩ := ht.used c hc
    have hbd : b ≠ d := by
      rintro rfl
      exact hne (hbptr.symm.trans hdptr)
    have hapart := hr.blocks_apart henv hb hd hbd
    unfold Block.stop at hapart
    omega
  case headers =>
    intro a ha i hi c hc
    rw [hr.isInit_iff] at hi
    obtain ⟨b, ⟨j, hj, hb, -⟩, hptr, hlen⟩ := ht.used a ha
    by_cases hij : i = j
    · subst hij
      by_cases hbc : b = c
      · subst hbc
        omega
      · have hapart := (hr.laid i hi).tiled.apart hb hc hbc
        unfold Block.stop at hapart
        omega
    · have hapart := hr.heaps_apart henv hi hj hij
      have hbin := (hr.laid j hj).block_in hb
      have hcin := (hr.laid i hi).block_in hc
      unfold Block.stop at hbin hcin
      omega

/-! ## Steps -/

/-- A new used block of the requested size. -/
lemma Tracks.give {live : List Alloc} {n' size : ℕ} {bs' : ℕ → List Block} {d : Block}
    (ht : Tracks live n bs) (hlen : k ≤ size) (hsize : d.size = size)
    (hnew : ∀ b, UsedIn n bs b → b.ptr ≠ d.ptr)
    (hiff : ∀ b, UsedIn n' bs' b ↔ UsedIn n bs b ∨ b = d) :
    Tracks (⟨d.ptr, k⟩ :: live) n' bs' := by
  constructor
  case used =>
    intro a ha
    rcases List.mem_cons.mp ha with rfl | ha
    · exact ⟨d, (hiff d).mpr (.inr rfl), rfl, by simp only; omega⟩
    · obtain ⟨b, hb, hptr, hle⟩ := ht.used a ha
      exact ⟨b, (hiff b).mpr (.inl hb), hptr, hle⟩
  case complete =>
    intro b hb
    rcases (hiff b).mp hb with hb | rfl
    · obtain ⟨a, ha, hptr⟩ := ht.complete b hb
      exact ⟨a, List.mem_cons_of_mem _ ha, hptr⟩
    · exact ⟨_, List.mem_cons_self, rfl⟩
  case nodup =>
    rw [List.map_cons, List.nodup_cons]
    refine ⟨?_, ht.nodup⟩
    intro hmem
    obtain ⟨a, ha, hptr⟩ := List.mem_map.mp hmem
    obtain ⟨b, hb, hbptr, -⟩ := ht.used a ha
    exact hnew b hb (hbptr.trans hptr)

/-- A used block is given back. -/
lemma Tracks.drop {live : List Alloc} {bs' : ℕ → List Block} {b : Block} (ht : Tracks live n bs)
    (hother : ∀ c, UsedIn n bs c → c ≠ b → c.ptr ≠ b.ptr)
    (hiff : ∀ c, UsedIn n bs' c ↔ UsedIn n bs c ∧ c ≠ b) :
    Tracks (live.filter fun a => a.ptr ≠ b.ptr) n bs' := by
  constructor
  case used =>
    intro a ha
    rw [List.mem_filter, decide_eq_true_iff] at ha
    obtain ⟨c, hc, hptr, hle⟩ := ht.used a ha.1
    refine ⟨c, (hiff c).mpr ⟨hc, ?_⟩, hptr, hle⟩
    rintro rfl
    exact ha.2 hptr.symm
  case complete =>
    intro c hc
    obtain ⟨hc, hne⟩ := (hiff c).mp hc
    obtain ⟨a, ha, hptr⟩ := ht.complete c hc
    refine ⟨a, ?_, hptr⟩
    rw [List.mem_filter, decide_eq_true_iff, hptr]
    exact ⟨ha, hother c hc hne⟩
  case nodup => exact ht.nodup.sublist ((List.filter_sublist).map _)

/-- The used blocks stay the same. -/
lemma Tracks.congr {live : List Alloc} {n' : ℕ} {bs' : ℕ → List Block} (ht : Tracks live n bs)
    (hiff : ∀ b, UsedIn n' bs' b ↔ UsedIn n bs b) : Tracks live n' bs' where
  used a ha := by
    obtain ⟨b, hb, hrest⟩ := ht.used a ha
    exact ⟨b, (hiff b).mpr hb, hrest⟩
  complete b hb := ht.complete b ((hiff b).mp hb)
  nodup := ht.nodup

lemma step_malloc {r : Option ℕ × Manager} (h : s.mgr.malloc env k = .ok r) :
    s.step env (.malloc k) = .ok (s.malloced k r) := by
  show (do return s.malloced k (← s.mgr.malloc env k) : Except Fault St) = _
  rw [h]
  rfl

/-- `malloc(k)` keeps the invariant. -/
lemma Inv.malloc (henv : env.Ok) (h : Inv env s) (hpos : 0 < k) (hk : k ≤ 2 ^ 30)
    (hwrap : NoWrap s.mgr k) : ∃ t, s.step env (.malloc k) = .ok t ∧ Inv env t := by
  obtain ⟨n, bs, hr, hphase, ht⟩ := h
  obtain ⟨⟨r, mgr⟩, n', bs', heq, hr', hphase', hgives, -⟩ :=
    hr.malloc henv hphase hpos (by omega) hwrap
  obtain ⟨-, hlen, -⟩ := adjustToMemBlock_spec (k := k) (by omega)
  refine ⟨_, step_malloc heq, n', bs', ?_⟩
  cases r with
  | none => exact ⟨hr', hphase', ht.congr hgives⟩
  | some p =>
    obtain ⟨d, rfl, hsize, hnew, hiff⟩ := hgives
    refine ⟨hr', hphase', ht.give hlen hsize (fun b hb hptr => ?_) hiff⟩
    have hsame := hr'.eq_of_ptr_eq henv ((hiff b).mpr (.inl hb)) ((hiff d).mpr (.inr rfl)) hptr
    rw [hsame] at hb
    exact hnew hb

/-- `free(p)` keeps the invariant. -/
lemma Inv.free (henv : env.Ok) (h : Inv env s) (hp : ∃ a ∈ s.live, a.ptr = p) :
    ∃ t, s.step env (.free p) = .ok t ∧ Inv env t := by
  obtain ⟨n, bs, hr, hphase, ht⟩ := h
  obtain ⟨a, ha, rfl⟩ := hp
  obtain ⟨b, hb, hptr, -⟩ := ht.used a ha
  obtain ⟨bs', hr', hphase', hiff, -⟩ := hr.free henv hphase hb
  have hother : ∀ c, UsedIn n bs c → c ≠ b → c.ptr ≠ b.ptr :=
    fun c hc hne hsame => hne (hr.eq_of_ptr_eq henv hc hb hsame)
  have hdrop := ht.drop hother hiff
  rw [hptr] at hr' hphase' hdrop
  exact ⟨_, rfl, n, bs', hr', hphase', hdrop⟩

/-- A write into a live block keeps the invariant. -/
lemma Inv.write {x : ℕ} {v : UInt8} (henv : env.Ok) (h : Inv env s)
    (hx : ∃ a ∈ s.live, a.ptr ≤ x ∧ x < a.ptr + a.len) :
    ∃ t, s.step env (.write x v) = .ok t ∧ Inv env t := by
  obtain ⟨n, bs, hr, hphase, ht⟩ := h
  obtain ⟨a, ha, hle, hlt⟩ := hx
  obtain ⟨b, hb, hptr, hlen⟩ := ht.used a ha
  have hframe : ∀ y, y < b.ptr ∨ b.stop ≤ y →
      (if y = x then v else s.mgr.mem y) = s.mgr.mem y := by
    intro y hy
    refine if_neg ?_
    unfold Block.stop at hy
    omega
  exact ⟨_, rfl, n, bs, hr.congr_payload henv hb hframe, hphase.congr rfl rfl rfl rfl, ht⟩

end UosioCdt.Malloc
