import UosioCdt.Malloc.SimpleMallocTheorems
import UosioCdt.Malloc.SimpleRealloc

/-!
# Theorems: `realloc` of the bump allocator

`realloc` copies nothing. The bytes behind the last pointer are still zero, so a block is preserved
exactly when the bytes to preserve are zero.
-/

namespace UosioCdt.Malloc

/-! ## Calls -/

namespace Bump

variable {s s' : Bump} {size ret : UInt32} {granted : Bool} {blocks : List Extent}

lemma call_zero (h : s.call 0 8 granted = some (ret, s')) : ret = 0 ∧ s' = s := by
  unfold call at h
  rw [if_pos rfl] at h
  cases h
  exact ⟨rfl, rfl⟩

lemma one_le_of_ne (hsize : size ≠ 0) : 1 ≤ size.toNat := by
  have hnat : size.toNat ≠ 0 := fun h => hsize (UInt32.toNat_inj.1 h)
  omega

/-- A block is placed at the last pointer. -/
lemma Inv.ret_eq (h : s.Inv blocks) (hsize : size ≠ 0)
    (hcall : s.call size 8 granted = some (ret, s')) : ret = s.dsmalloc.lastPtr := by
  rw [h.call_eq (one_le_of_ne hsize)] at hcall
  split at hcall
  · cases hcall
    rfl
  · cases hcall

/-- A block that ends in the address space does not overrun. -/
lemma not_overruns (hstop : s.stop size < 2 ^ 32) : ¬ Overruns s ⟨size, granted⟩ := by
  intro hover
  exact absurd hover.1 (not_le.2 hstop)

/-- The block that a call returns lies inside the memory, apart from the others and in front of the
last pointer. -/
lemma Inv.call_block (h : s.Inv blocks) (hsize : size ≠ 0)
    (hover : ¬ Overruns s ⟨size, granted⟩) (hcall : s.call size 8 granted = some (ret, s')) :
    s'.Inv (⟨ret, size⟩ :: blocks) ∧ ret = s.dsmalloc.lastPtr ∧
      ret.toNat + size.toNat ≤ s'.dsmalloc.lastPtr.toNat := by
  have hinv := h.step (r := ⟨size, granted⟩) (one_le_of_ne hsize) hover hcall
  exact ⟨hinv, h.ret_eq hsize hcall, hinv.behind _ List.mem_cons_self⟩

/-- A call returns a block inside the memory exactly when the host grants the pages and the block
ends in the address space. -/
lemma Inv.fits_iff (h : s.Inv blocks) (hsize : size ≠ 0) :
    (∃ ret s', s.call size 8 granted = some (ret, s') ∧
        ret.toNat + size.toNat ≤ s'.pages * 65536) ↔
      granted = true ∧ s.pages + size.toNat / 65536 < 65536 ∧ s.stop size < 2 ^ 32 := by
  have hone := one_le_of_ne hsize
  constructor
  · rintro ⟨ret, s', hcall, hin⟩
    rw [h.call_eq hone] at hcall
    split at hcall
    · rename_i hgrant
      cases hcall
      have hover : ¬ Overruns s ⟨size, granted⟩ := by
        intro hover
        have hfull := hover.2.1
        rw [h.safe.nextPage_eq] at hfull
        have hbeyond := (h.overrun hfull hover.1).2
        exact absurd hin (not_le.2 hbeyond)
      exact ⟨hgrant.1, h.stop_lt hover hgrant⟩
    · cases hcall
  · rintro ⟨hgranted, hfull, hstop⟩
    have hfits := h.fits hfull hstop
    refine ⟨s.dsmalloc.lastPtr, s.next size, ?_, ?_⟩
    · rw [h.call_eq hone]
      exact if_pos ⟨hgranted, hfits.2⟩
    · have hblock : s.dsmalloc.lastPtr.toNat + size.toNat ≤ s.stop size := by
        unfold stop
        omega
      exact le_trans hblock hfits.1

end Bump

namespace SimpleHeap

variable {s t : SimpleHeap} {size ret : UInt32} {granted : Bool}

lemma malloc_eq_some : s.malloc size granted = some (ret, t) ↔
    ∃ bump, s.bump.call size 8 granted = some (ret, bump) ∧ { s with bump } = t := by
  constructor
  · intro h
    obtain ⟨⟨ret, bump⟩, hcall, heq⟩ := Option.bind_eq_some_iff.1 h
    cases heq
    exact ⟨bump, hcall, rfl⟩
  · rintro ⟨bump, hcall, rfl⟩
    exact Option.bind_eq_some_iff.2 ⟨(ret, bump), hcall, rfl⟩

/-- The bytes that were zero still are. -/
lemma calloc_eq_some {count : UInt32} (h : s.calloc count size granted = some (ret, t)) :
    ∃ ptr bump, s.bump.call (count * size) 8 granted = some (ptr, bump) ∧ ret = ptr ∧
      t.bump = bump ∧ ∀ a, s.mem a = 0 → t.mem a = 0 := by
  obtain ⟨⟨ptr, bump⟩, hcall, heq⟩ := Option.bind_eq_some_iff.1 h
  refine ⟨ptr, bump, hcall, ?_⟩
  by_cases hptr : ptr = 0
  · simp only [hptr, ne_eq, not_true_eq_false, if_false] at heq
    cases heq
    exact ⟨hptr.symm, rfl, fun a ha => ha⟩
  · simp only [ne_eq, hptr, not_false_eq_true, if_true] at heq
    cases heq
    refine ⟨rfl, rfl, ?_⟩
    intro a ha
    simp [memset, ha]

end SimpleHeap

/-! ## One step -/

namespace SimpleRun

open Bump

/-- What holds between steps: the bytes behind the last pointer have never been used. -/
structure Inv (s : SimpleRun) : Prop where
  bump : s.heap.bump.Inv s.blocks
  live : ∀ b ∈ s.live, b ∈ s.blocks
  zero : ∀ a, s.heap.bump.dsmalloc.lastPtr.toNat ≤ a → s.heap.mem a = 0

variable {s t : SimpleRun} {size ret ptr : UInt32} {granted : Bool} {bump : Bump} {mem : Mem}

lemma Inv.push (h : s.Inv) (hover : ¬ s.heap.bump.Overruns ⟨size, granted⟩)
    (hcall : s.heap.bump.call size 8 granted = some (ret, bump))
    (hmem : ∀ a, s.heap.mem a = 0 → mem a = 0) : (s.push ret size ⟨bump, mem⟩).Inv := by
  unfold SimpleRun.push
  by_cases hsize : size = 0
  · rw [if_pos hsize]
    subst hsize
    obtain ⟨-, rfl⟩ := call_zero hcall
    exact ⟨h.bump, h.live, fun a ha => hmem a (h.zero a ha)⟩
  · rw [if_neg hsize]
    obtain ⟨hinv, hret, hlast⟩ := h.bump.call_block hsize hover hcall
    refine ⟨hinv, ?_, ?_⟩
    · intro b hb
      rcases List.mem_cons.1 hb with hb | hb
      · rw [hb]
        exact List.mem_cons_self
      · exact List.mem_cons_of_mem _ (h.live b hb)
    · intro a ha
      -- the last pointer only moves up
      apply hmem a
      apply h.zero a
      have hle : bump.dsmalloc.lastPtr.toNat ≤ a := ha
      rw [hret] at hlast
      omega

lemma Inv.drop (h : s.Inv) (ptr : UInt32) : (s.drop ptr).Inv :=
  ⟨h.bump, fun b hb => h.live b (List.mem_of_mem_filter hb), h.zero⟩

/-- `realloc` preserves exactly the bytes that are zero. -/
lemma Inv.preserves_iff_fresh (h : s.Inv) (op : SimpleOp) : s.Preserves op ↔ s.Fresh op := by
  cases op with
  | realloc ptr size granted =>
    apply forall_congr'
    intro m
    apply imp_congr_right
    intro hm
    by_cases hsize : size = 0
    · subst hsize
      refine iff_of_true ⟨0, s.heap, ?_, ?_, ?_, ?_⟩ (Or.inl rfl)
      · simp [SimpleHeap.realloc, Bump.call]
      · simp
      · intro b _
        left
        simp
      · intro i hi
        simp at hi
    · constructor
      · -- the new block lies behind every block so far, where all bytes are zero
        rintro ⟨ret, heap, hre, hin, -, hbytes⟩
        right
        obtain ⟨bump, hcall, rfl⟩ := SimpleHeap.malloc_eq_some.1 hre
        obtain ⟨hgranted, hfull, hstop⟩ := (h.bump.fits_iff hsize).1 ⟨ret, bump, hcall, hin⟩
        refine ⟨hgranted, hfull, hstop, ?_⟩
        intro i hi
        have hret := h.bump.ret_eq hsize hcall
        rw [← hbytes i hi]
        apply h.zero
        rw [hret]
        omega
      · rintro (hzero | ⟨hgranted, hfull, hstop, hbytes⟩)
        · exact absurd hzero hsize
        · obtain ⟨ret, bump, hcall, hin⟩ := (h.bump.fits_iff hsize).2 ⟨hgranted, hfull, hstop⟩
          have hblock := h.bump.call_block hsize (not_overruns hstop) hcall
          refine ⟨ret, ⟨bump, s.heap.mem⟩, ?_, hin, ?_, ?_⟩
          · exact SimpleHeap.malloc_eq_some.2 ⟨bump, hcall, rfl⟩
          · exact (List.pairwise_cons.1 hblock.1.safe.apart).1
          · intro i hi
            rw [hbytes i hi]
            apply h.zero
            rw [hblock.2.1]
            omega
  | malloc size granted => exact Iff.rfl
  | calloc count size granted => exact Iff.rfl
  | free ptr => exact Iff.rfl
  | write addr value => exact Iff.rfl

/-- A live pointer that is preserved keeps the allocator in the address space. -/
lemma not_overruns_of_fresh (hwithin : s.Within (.realloc ptr size granted))
    (hfresh : s.Fresh (.realloc ptr size granted)) :
    ¬ s.heap.bump.Overruns ⟨size, granted⟩ := by
  rcases hwithin with ⟨m, hm⟩ | hover
  · rcases hfresh m hm with rfl | ⟨-, -, hstop, -⟩
    · apply not_overruns
      have hlt := s.heap.bump.dsmalloc.lastPtr.toNat_lt
      unfold stop
      simpa using hlt
    · exact not_overruns hstop
  · exact hover

lemma Inv.step (h : s.Inv) {op : SimpleOp} (hown : s.Own op) (hwithin : s.Within op)
    (hfresh : s.Fresh op) (hstep : s.step op = some t) : t.Inv := by
  cases op with
  | malloc size granted =>
    obtain ⟨⟨ret, heap⟩, hmalloc, heq⟩ := Option.bind_eq_some_iff.1 hstep
    cases heq
    obtain ⟨bump, hcall, rfl⟩ := SimpleHeap.malloc_eq_some.1 hmalloc
    exact h.push hwithin hcall fun a ha => ha
  | calloc count size granted =>
    obtain ⟨⟨ret, ⟨bump, mem⟩⟩, hcalloc, heq⟩ := Option.bind_eq_some_iff.1 hstep
    cases heq
    obtain ⟨ptr, bump, hcall, rfl, rfl, hmem⟩ := SimpleHeap.calloc_eq_some hcalloc
    exact h.push hwithin hcall hmem
  | realloc ptr size granted =>
    obtain ⟨⟨ret, heap⟩, hrealloc, heq⟩ := Option.bind_eq_some_iff.1 hstep
    cases heq
    -- the two functions have one body
    obtain ⟨bump, hcall, rfl⟩ := SimpleHeap.malloc_eq_some.1 hrealloc
    have hover := not_overruns_of_fresh hwithin hfresh
    exact (h.drop ptr).push (s := s.drop ptr) hover hcall fun a ha => ha
  | free ptr =>
    cases hstep
    exact h.drop ptr
  | write addr value =>
    cases hstep
    obtain ⟨b, hb, -, hlt⟩ := hown
    have hbehind := h.bump.behind b hb
    refine ⟨h.bump, h.live, ?_⟩
    intro a ha
    have hle : s.heap.bump.dsmalloc.lastPtr.toNat ≤ a := ha
    have hne : a ≠ addr.toNat := by
      omega
    show (if a = addr.toNat then value else s.heap.mem a) = 0
    rw [if_neg hne]
    exact h.zero a hle

/-! ## Runs -/

lemma Inv.start {heapBase : UInt32} {pages : ℕ} (hbase : heapBase.toNat ≤ pages * 65536)
    (hpages : pages ≤ maxPages)
    (hzero : ∀ a, (align heapBase 8).toNat ≤ a → mem a = 0) :
    (SimpleRun.start heapBase pages mem).Inv :=
  ⟨Bump.Inv.start hbase hpages, List.forall_mem_nil _, hzero⟩

/-- When in every step of a run no other call overruns the memory and each `realloc` of a live block
fits and has zeros to preserve, every such block is preserved. Of the runs without an overrun no other
has this property. -/
theorem along_preserves (heapBase : UInt32) (pages : ℕ) (mem : Mem) (ops : List SimpleOp)
    (hbase : heapBase.toNat ≤ pages * 65536) (hpages : pages ≤ maxPages)
    (hzero : ∀ a, (align heapBase 8).toNat ≤ a → mem a = 0)
    (hown : Runs.Along step Own (SimpleRun.start heapBase pages mem) ops) :
    (Runs.Along step (fun s op => s.Within op ∧ s.Fresh op) (SimpleRun.start heapBase pages mem) ops →
      Runs.Along step Preserves (SimpleRun.start heapBase pages mem) ops) ∧
    (Runs.Along step Within (SimpleRun.start heapBase pages mem) ops →
      Runs.Along step Preserves (SimpleRun.start heapBase pages mem) ops →
      Runs.Along step Fresh (SimpleRun.start heapBase pages mem) ops) := by
  have hiff (hwithin : Runs.Along step Within (SimpleRun.start heapBase pages mem) ops) :
      Runs.Along step Preserves (SimpleRun.start heapBase pages mem) ops ↔
        Runs.Along step Fresh (SimpleRun.start heapBase pages mem) ops :=
    Runs.along_iff (Inv.start hbase hpages hzero) (hown.and hwithin)
      (fun _ op h _ => h.preserves_iff_fresh op)
      fun _ _ _ h hop hfresh hstep => h.step hop.1 hop.2 hfresh hstep
  constructor
  · intro hfresh
    apply (hiff (hfresh.mono fun _ _ h => h.1)).mpr
    exact hfresh.mono fun _ _ h => h.2
  · intro hwithin hpreserves
    exact (hiff hwithin).mp hpreserves

/-- Four bytes that the program has not written grow to eight. -/
theorem along_preserves_grow :
    Runs.Along step Preserves (SimpleRun.start 66568 2 fun _ => 0)
      [.malloc 4 true, .realloc 66568 8 true] := by
  apply (along_preserves 66568 2 (fun _ => 0) _ (by decide) (by decide) (fun _ _ => rfl) _).1
  · refine ⟨⟨fun h => absurd h.1 (by decide), trivial⟩, ?_⟩
    rintro t ht
    cases ht
    refine ⟨⟨Or.inl ⟨4, List.mem_cons_self⟩, ?_⟩, fun _ _ => trivial⟩
    intro m hm
    exact Or.inr ⟨rfl, by decide, by decide, fun _ _ => rfl⟩
  · exact ⟨trivial, fun _ _ => ⟨trivial, fun _ _ => trivial⟩⟩

/-- A block of four bytes with a 7 in front grows to eight bytes, and the 7 is lost. -/
theorem exists_not_preserves :
    ∃ (heapBase : UInt32) (pages : ℕ) (mem : Mem) (ops : List SimpleOp),
      heapBase.toNat ≤ pages * 65536 ∧ pages ≤ maxPages ∧
        (∀ a, (align heapBase 8).toNat ≤ a → mem a = 0) ∧
        Runs.Along step (fun s op => s.Own op ∧ s.Within op) (SimpleRun.start heapBase pages mem) ops ∧
        ¬ Runs.Along step Preserves (SimpleRun.start heapBase pages mem) ops := by
  refine ⟨66568, 2, fun _ => 0, [.malloc 4 true, .write 66568 7, .realloc 66568 8 true],
    by decide, by decide, fun _ _ => rfl, ?_, ?_⟩
  · refine ⟨⟨trivial, fun h => absurd h.1 (by decide)⟩, ?_⟩
    rintro t ht
    cases ht
    refine ⟨⟨⟨⟨66568, 4⟩, List.mem_cons_self, by decide, by decide⟩, trivial⟩, ?_⟩
    rintro t ht
    cases ht
    refine ⟨⟨trivial, Or.inl ⟨4, List.mem_cons_self⟩⟩, ?_⟩
    intro t _
    trivial
  · rintro ⟨-, h⟩
    obtain ⟨-, h⟩ := h _ rfl
    obtain ⟨h, -⟩ := h _ rfl
    obtain ⟨ret, heap, hre, -, -, hbytes⟩ := h 4 List.mem_cons_self
    cases hre
    exact absurd (hbytes 0 (by decide)) (by decide)

end SimpleRun

end UosioCdt.Malloc
