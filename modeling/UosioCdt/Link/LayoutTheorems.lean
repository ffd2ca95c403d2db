import Mathlib.Data.List.Induction
import UosioCdt.Link.Layout

/-!
# Theorems: the memory of a linked contract

As long as a program needs less than the 65536 pages of the address space, the layout of the linker is
the one without a bound, and this one keeps everything apart.
-/

namespace UosioCdt.Link

open BumpLayout

/-! ## Input segments in an output segment -/

/-- The areas of the input segments. -/
def OutputSegment.parts (s : OutputSegment) : List (ℕ × ℕ) :=
  s.inputSegments.map fun p => (p.1, p.2.getSize)

/-- What `addInputSegment` keeps when it counts without a bound. -/
structure OutputSegment.Laid (s : OutputSegment) : Prop where
  stacked : Stacked 0 s.parts s.size
  aligned : ∀ p ∈ s.inputSegments, p.2.alignment ∣ p.1 ∧ p.2.alignment ∣ s.alignment
  power : ∃ k, s.alignment = 2 ^ k

namespace OutputSegment

variable {s : OutputSegment} {inSeg : InputSegment}

lemma Laid.align_pos (h : s.Laid) : 0 < s.alignment := by
  obtain ⟨k, hk⟩ := h.power
  exact hk ▸ Nat.two_pow_pos k

lemma parts_addInputSegment (w : ℕ) : (s.addInputSegment w inSeg).parts
    = s.parts ++ [(alignTo s.size inSeg.alignment % w, inSeg.getSize)] := List.map_append

lemma stacked_addInputSegment (h : Stacked 0 s.parts s.size) (hpos : 0 < inSeg.alignment) :
    Stacked 0 (s.addInputSegment 0 inSeg).parts (s.addInputSegment 0 inSeg).size := by
  rw [parts_addInputSegment, Nat.mod_zero]
  refine stacked_append h ⟨le_alignTo _ hpos, ?_⟩
  simp only [addInputSegment, Nat.mod_zero, Stacked, le_refl]

/-- The first input segment. -/
lemma laid_new (name : String) {k : ℕ} (hk : inSeg.alignment = 2 ^ k) :
    ((new name).addInputSegment 0 inSeg).Laid where
  stacked := stacked_addInputSegment (Nat.le_refl 0) (hk ▸ Nat.two_pow_pos k)
  aligned := by
    intro p hp
    obtain rfl := List.mem_singleton.mp hp
    simp only [Nat.mod_zero]
    refine ⟨dvd_alignTo _ _, ?_⟩
    exact Dvd.intro_left 1 ((Nat.one_mul _).trans (Nat.zero_max _).symm)
  power := ⟨k, (Nat.zero_max _).trans hk⟩

/-- The other ones. -/
lemma Laid.addInputSegment (h : s.Laid) {k : ℕ} (hk : inSeg.alignment = 2 ^ k) :
    (s.addInputSegment 0 inSeg).Laid := by
  obtain ⟨i, hi⟩ := h.power
  have hmax := pow_dvd_max 2 (i := i) (j := k) (by decide)
  have halign : (s.addInputSegment 0 inSeg).alignment = max (2 ^ i) (2 ^ k) := by
    rw [← hi, ← hk]
    rfl
  refine ⟨stacked_addInputSegment h.stacked (hk ▸ Nat.two_pow_pos k), fun p hp => ?_, ?_⟩
  · rw [halign]
    rcases List.mem_append.mp hp with hp | hp
    · obtain ⟨hoffset, hdvd⟩ := h.aligned p hp
      exact ⟨hoffset, (hi ▸ hdvd).trans hmax.1⟩
    · obtain rfl := List.mem_singleton.mp hp
      simp only [Nat.mod_zero]
      exact ⟨dvd_alignTo _ _, hk ▸ hmax.2⟩
  · rw [halign]
    rcases max_choice (2 ^ i) (2 ^ k) with hc | hc
    · exact ⟨i, hc⟩
    · exact ⟨k, hc⟩

lemma size_le_addInputSegment (hpos : 0 < inSeg.alignment) :
    s.size ≤ alignTo s.size inSeg.alignment ∧
      alignTo s.size inSeg.alignment ≤ (s.addInputSegment 0 inSeg).size := by
  refine ⟨le_alignTo _ hpos, ?_⟩
  simp only [addInputSegment, Nat.mod_zero]
  omega

/-- Where no sum reaches the modulus, it makes no difference. -/
lemma addInputSegment_eq {w : ℕ} (h : (s.addInputSegment 0 inSeg).size < w)
    (hpos : 0 < inSeg.alignment) : s.addInputSegment w inSeg = s.addInputSegment 0 inSeg := by
  have hle := (size_le_addInputSegment (s := s) hpos).2
  simp only [addInputSegment, Nat.mod_zero] at h hle ⊢
  rw [Nat.mod_eq_of_lt (by omega : alignTo s.size inSeg.alignment < w), Nat.mod_eq_of_lt h]

end OutputSegment

/-! ## `createOutputSegments` -/

section create

variable (cfg : Config) {segments : List OutputSegment} {inSeg : InputSegment}

/-- What the loop keeps: the output segments have different names, and each one is laid out. -/
structure Collected (segments : List OutputSegment) : Prop where
  nodup : (segments.map (·.name)).Nodup
  laid : ∀ s ∈ segments, s.Laid

lemma name_addSegment (w : ℕ) (name : String) :
    (segments.map fun s => if s.name = name then s.addInputSegment w inSeg else s).map (·.name)
      = segments.map (·.name) := by
  rw [List.map_map]
  refine List.map_congr_left fun s _ => ?_
  simp only [Function.comp_apply]
  split <;> rfl

lemma any_name_iff {name : String} :
    segments.any (·.name = name) = true ↔ name ∈ segments.map (·.name) := by
  simp only [List.any_eq_true, decide_eq_true_eq, List.mem_map]

lemma Collected.addSegment (h : Collected segments) {k : ℕ} (hk : inSeg.alignment = 2 ^ k) :
    Collected (addSegment 0 cfg segments inSeg) := by
  unfold Link.addSegment
  by_cases hany : segments.any (·.name = getOutputDataSegmentName cfg inSeg.name) = true
  · rw [if_pos hany]
    refine ⟨(name_addSegment 0 _).symm ▸ h.nodup, fun s hs => ?_⟩
    obtain ⟨t, ht, rfl⟩ := List.mem_map.mp hs
    split
    · exact (h.laid t ht).addInputSegment hk
    · exact h.laid t ht
  · rw [if_neg hany]
    rw [any_name_iff] at hany
    constructor
    · rw [List.map_append]
      refine List.nodup_append.mpr ⟨h.nodup, List.pairwise_singleton _ _, ?_⟩
      intro name hname new hnew heq
      have hsame : new = getOutputDataSegmentName cfg inSeg.name := List.mem_singleton.mp hnew
      rw [heq, hsame] at hname
      exact hany hname
    · intro s hs
      rcases List.mem_append.mp hs with hs | hs
      · exact h.laid s hs
      · obtain rfl := List.mem_singleton.mp hs
        exact OutputSegment.laid_new _ hk

/-- All input segments of the output segments. -/
def inputsOf (segments : List OutputSegment) : List InputSegment :=
  segments.flatMap fun s => s.inputSegments.map Prod.snd

lemma inputsOf_replace {w : ℕ} {name : String} (hnodup : (segments.map (·.name)).Nodup)
    (hmem : name ∈ segments.map (·.name)) :
    (inputsOf (segments.map fun s => if s.name = name then s.addInputSegment w inSeg else s)).Perm
      (inputsOf segments ++ [inSeg]) := by
  induction segments with
  | nil => exact absurd hmem List.not_mem_nil
  | cons s segments ih =>
    rw [List.map_cons, List.nodup_cons] at hnodup
    by_cases hs : s.name = name
    · have hrest : (segments.map fun t => if t.name = name then t.addInputSegment w inSeg else t)
          = segments := by
        conv_rhs => rw [← List.map_id segments]
        refine List.map_congr_left fun t ht => ?_
        rw [if_neg, id_eq]
        intro heq
        exact hnodup.1 (hs.trans heq.symm ▸ List.mem_map_of_mem ht)
      rw [List.map_cons, hrest, if_pos hs]
      simp only [inputsOf, List.flatMap_cons, OutputSegment.addInputSegment, List.map_append,
        List.map_singleton, List.append_assoc]
      exact List.perm_append_comm.append_left _
    · have hrest := ih hnodup.2 ((List.mem_cons.mp hmem).resolve_left (Ne.symm hs))
      rw [List.map_cons, if_neg hs]
      simp only [inputsOf, List.flatMap_cons, List.append_assoc] at hrest ⊢
      exact hrest.append_left _

lemma inputsOf_addSegment (w : ℕ) (hnodup : (segments.map (·.name)).Nodup) :
    (inputsOf (addSegment w cfg segments inSeg)).Perm (inputsOf segments ++ [inSeg]) := by
  unfold addSegment
  by_cases hany : segments.any (·.name = getOutputDataSegmentName cfg inSeg.name) = true
  · rw [if_pos hany]
    exact inputsOf_replace hnodup (any_name_iff.mp hany)
  · rw [if_neg hany]
    simp only [inputsOf, List.flatMap_append, List.flatMap_singleton]
    exact List.Perm.refl _

/-- A segment of the loop is in the next pass at least as large. -/
lemma size_le_addSegment (hpos : 0 < inSeg.alignment) {s : OutputSegment} (hs : s ∈ segments) :
    ∃ t ∈ addSegment 0 cfg segments inSeg, s.size ≤ t.size := by
  unfold addSegment
  simp only
  split
  · refine ⟨_, List.mem_map_of_mem hs, ?_⟩
    split
    · exact (OutputSegment.size_le_addInputSegment hpos).1.trans
        (OutputSegment.size_le_addInputSegment hpos).2
    · exact le_rfl
  · exact ⟨s, List.mem_append_left _ hs, le_rfl⟩

lemma addSegment_eq {w : ℕ} (hpos : 0 < inSeg.alignment)
    (h : ∀ s ∈ addSegment 0 cfg segments inSeg, s.size < w) :
    addSegment w cfg segments inSeg = addSegment 0 cfg segments inSeg := by
  unfold addSegment at h ⊢
  simp only at h ⊢
  split
  · rename_i hany
    rw [if_pos hany] at h
    refine List.map_congr_left fun s hs => ?_
    have hsize := h _ (List.mem_map_of_mem hs)
    split
    · rename_i hname
      rw [if_pos hname] at hsize
      exact OutputSegment.addInputSegment_eq hsize hpos
    · rfl
  · rename_i hany
    rw [if_neg hany] at h
    rw [OutputSegment.addInputSegment_eq (h _ (List.mem_append_right _ (List.mem_singleton_self _)))
      hpos]

variable {l : List InputSegment}

/-- The loop, without a bound. -/
lemma collected_foldl (hl : ∀ inSeg ∈ l, ∃ k, inSeg.alignment = 2 ^ k) :
    Collected (l.foldl (addSegment 0 cfg) []) ∧
      (inputsOf (l.foldl (addSegment 0 cfg) [])).Perm l := by
  induction l using List.reverseRecOn with
  | nil =>
    exact ⟨⟨List.nodup_nil, fun s hs => absurd hs List.not_mem_nil⟩, List.Perm.refl _⟩
  | append_singleton l inSeg ih =>
    obtain ⟨hcollected, hperm⟩ := ih fun x hx => hl x (List.mem_append_left _ hx)
    obtain ⟨k, hk⟩ := hl inSeg (List.mem_append_right _ (List.mem_singleton_self _))
    rw [List.foldl_append]
    exact ⟨hcollected.addSegment cfg hk,
      (inputsOf_addSegment cfg 0 hcollected.nodup).trans (hperm.append_right _)⟩

/-- With a modulus above all sizes the loop does the same. -/
lemma foldl_addSegment_eq {w : ℕ} (hl : ∀ inSeg ∈ l, ∃ k, inSeg.alignment = 2 ^ k)
    (h : ∀ s ∈ l.foldl (addSegment 0 cfg) [], s.size < w) :
    l.foldl (addSegment w cfg) [] = l.foldl (addSegment 0 cfg) [] := by
  induction l using List.reverseRecOn with
  | nil => rfl
  | append_singleton l inSeg ih =>
    obtain ⟨k, hk⟩ := hl inSeg (List.mem_append_right _ (List.mem_singleton_self _))
    have hpos : 0 < inSeg.alignment := hk ▸ Nat.two_pow_pos k
    rw [List.foldl_append] at h ⊢
    rw [List.foldl_append, ih (fun x hx => hl x (List.mem_append_left _ hx)) fun s hs => by
      obtain ⟨t, ht, hle⟩ := size_le_addSegment cfg hpos hs
      exact hle.trans_lt (h t ht)]
    exact addSegment_eq cfg hpos h

end create

/-! ## The addresses -/

section place

variable {segments : List OutputSegment} {ptr w : ℕ}

lemma le_placeSegments (ptr : ℕ) (h : ∀ s ∈ segments, 0 < s.alignment) :
    ptr ≤ (placeSegments 0 ptr segments).2 ∧
      ∀ s ∈ segments, s.size ≤ (placeSegments 0 ptr segments).2 := by
  induction segments generalizing ptr with
  | nil => exact ⟨le_rfl, fun s hs => absurd hs List.not_mem_nil⟩
  | cons seg segments ih =>
    obtain ⟨hle, hmem⟩ := ih (alignTo ptr seg.alignment + seg.size)
      fun s hs => h s (List.mem_cons_of_mem _ hs)
    have halign := le_alignTo ptr (h seg List.mem_cons_self)
    simp only [placeSegments, Nat.mod_zero]
    refine ⟨by omega, fun s hs => ?_⟩
    rcases List.mem_cons.mp hs with rfl | hs
    · omega
    · exact hmem s hs

/-- Where no address reaches the modulus, it makes no difference. -/
lemma placeSegments_eq (h : ∀ s ∈ segments, 0 < s.alignment)
    (hlt : (placeSegments 0 ptr segments).2 < w) :
    placeSegments w ptr segments = placeSegments 0 ptr segments := by
  induction segments generalizing ptr with
  | nil => rfl
  | cons seg segments ih =>
    have hrest : ∀ s ∈ segments, 0 < s.alignment := fun s hs => h s (List.mem_cons_of_mem _ hs)
    simp only [placeSegments, Nat.mod_zero] at hlt ⊢
    have hle := (le_placeSegments (alignTo ptr seg.alignment + seg.size) hrest).1
    rw [Nat.mod_eq_of_lt (by omega : alignTo ptr seg.alignment < w),
      Nat.mod_eq_of_lt (by omega : alignTo ptr seg.alignment + seg.size < w), ih hrest hlt]

/-- The addresses are all that changes. -/
lemma placeSegments_forget : inputsOf (placeSegments w ptr segments).1 = inputsOf segments := by
  induction segments generalizing ptr with
  | nil => rfl
  | cons seg segments ih => exact congrArg (_ ++ ·) ih

/-- A placed output segment is aligned, and laid out as before. -/
lemma placed_laid (ptr : ℕ) (h : ∀ s ∈ segments, s.Laid) :
    ∀ s ∈ (placeSegments 0 ptr segments).1, s.Laid ∧ s.alignment ∣ s.startVA := by
  induction segments generalizing ptr with
  | nil => exact fun s hs => absurd hs List.not_mem_nil
  | cons seg segments ih =>
    intro s hs
    rcases List.mem_cons.mp hs with rfl | hs
    · obtain ⟨hstacked, haligned, hpower⟩ := h seg List.mem_cons_self
      refine ⟨⟨hstacked, haligned, hpower⟩, ?_⟩
      simp only [Nat.mod_zero]
      exact dvd_alignTo _ _
    · exact ih _ (fun t ht => h t (List.mem_cons_of_mem _ ht)) s hs

lemma placed_stacked (ptr : ℕ) (h : ∀ s ∈ segments, 0 < s.alignment) :
    Stacked ptr ((placeSegments 0 ptr segments).1.map fun s => (s.startVA, s.size))
      (placeSegments 0 ptr segments).2 := by
  induction segments generalizing ptr with
  | nil => exact Nat.le_refl _
  | cons seg segments ih =>
    have hrest := ih (alignTo ptr seg.alignment + seg.size)
      fun s hs => h s (List.mem_cons_of_mem _ hs)
    have halign := le_alignTo ptr (h seg List.mem_cons_self)
    simp only [placeSegments, Nat.mod_zero, List.map_cons]
    exact ⟨halign, hrest⟩

end place

/-! ## `layoutMemory` -/

/-- The addresses and sizes of all input segments, as the symbols see them. -/
def OutputSegment.areas (w : ℕ) (s : OutputSegment) : List (ℕ × ℕ) :=
  s.inputSegments.map fun p => (s.getVirtualAddress w p.1 0, p.2.getSize)

/-- What a contract relies on: nothing is lost, every input segment is at an address of its own, and
the stack and the heap are apart from them and in the memory that the contract asks for. -/
structure MemoryLayout.Sound (cfg : Config) (inputs : List InputSegment) (m : MemoryLayout) :
    Prop where
  complete : (inputsOf m.segments).Perm inputs
  aligned : ∀ s ∈ m.segments, ∀ p ∈ s.inputSegments,
    p.2.alignment ∣ s.getVirtualAddress (2 ^ 32) p.1 0
  contiguous : ∀ s ∈ m.segments, ∀ p ∈ s.inputSegments, ∀ i ≤ p.2.getSize,
    s.getVirtualAddress (2 ^ 32) p.1 i = s.getVirtualAddress (2 ^ 32) p.1 0 + i
  stacked : Stacked m.dsoHandle (m.segments.flatMap (OutputSegment.areas (2 ^ 32))) m.dataEnd
  base : cfg.stackFirst = false → m.dsoHandle = cfg.globalBase.toNat
  stack : cfg.relocatable = false → ∃ sp heap, m.stackPointer = some sp ∧ m.heapBase = some heap ∧
    16 ∣ sp ∧ cfg.zStackSize.toNat ≤ sp ∧ sp ≤ heap ∧ m.dataEnd ≤ heap ∧
    heap ≤ m.numMemoryPages * wasmPageSize ∧
    (sp ≤ m.dsoHandle ∨ m.dataEnd ≤ sp - cfg.zStackSize.toNat)
  pages : m.dataEnd ≤ m.numMemoryPages * wasmPageSize ∧
    cfg.initialMemory.toNat ≤ m.numMemoryPages * wasmPageSize ∧
    (cfg.maxMemory ≠ 0 → m.numMemoryPages ≤ m.maxMemoryPages)

section layout

variable {cfg : Config} {segments : List OutputSegment} {ptr w : ℕ}

lemma le_placeStack : ptr ≤ placeStack 0 cfg ptr := by
  unfold placeStack
  have halign := le_alignTo ptr (show 0 < kStackAlignment by decide)
  split
  · exact le_rfl
  · simp only [Nat.mod_zero]
    omega

lemma placeStack_eq (h : placeStack 0 cfg ptr < w) : placeStack w cfg ptr = placeStack 0 cfg ptr := by
  unfold placeStack at h ⊢
  split
  · rfl
  · rename_i hrel
    rw [if_neg hrel] at h
    simp only [Nat.mod_zero] at h ⊢
    rw [Nat.mod_eq_of_lt (by omega : alignTo ptr kStackAlignment < w), Nat.mod_eq_of_lt h]

lemma le_withInitialMemory : ptr ≤ withInitialMemory cfg ptr := by
  unfold withInitialMemory
  split <;> omega

lemma le_staticEnd : ptr ≤ staticEnd 0 cfg ptr := by
  unfold staticEnd
  split
  · exact le_rfl
  · exact le_placeStack

lemma dataStart_eq (h : dataStart 0 cfg < w) : dataStart w cfg = dataStart 0 cfg := by
  unfold dataStart at h ⊢
  split
  · rename_i hfirst
    rw [if_pos hfirst] at h
    exact placeStack_eq h
  · rfl

lemma staticEnd_eq (h : staticEnd 0 cfg ptr < w) : staticEnd w cfg ptr = staticEnd 0 cfg ptr := by
  unfold staticEnd at h ⊢
  split
  · rfl
  · rename_i hfirst
    rw [if_neg hfirst] at h
    exact placeStack_eq h

/-- The addresses of a layout without a bound, in ascending order. -/
lemma layout_chain (cfg : Config) (hpos : ∀ s ∈ segments, 0 < s.alignment) :
    (layoutMemory 0 cfg segments).dsoHandle ≤ (layoutMemory 0 cfg segments).dataEnd ∧
    (layoutMemory 0 cfg segments).dataEnd ≤ staticEnd 0 cfg (layoutMemory 0 cfg segments).dataEnd ∧
    staticEnd 0 cfg (layoutMemory 0 cfg segments).dataEnd
      ≤ withInitialMemory cfg (staticEnd 0 cfg (layoutMemory 0 cfg segments).dataEnd) ∧
    withInitialMemory cfg (staticEnd 0 cfg (layoutMemory 0 cfg segments).dataEnd)
      ≤ (layoutMemory 0 cfg segments).numMemoryPages * wasmPageSize ∧
    (layoutMemory 0 cfg segments).numMemoryPages * wasmPageSize
      = alignTo (withInitialMemory cfg (staticEnd 0 cfg (layoutMemory 0 cfg segments).dataEnd))
          wasmPageSize := by
  have hpages : ∀ v, alignTo v wasmPageSize % 0 / wasmPageSize * wasmPageSize
      = alignTo v wasmPageSize := by
    intro v
    rw [Nat.mod_zero, Nat.div_mul_cancel (dvd_alignTo _ _)]
  refine ⟨(le_placeSegments _ hpos).1, le_staticEnd, le_withInitialMemory, ?_, hpages _⟩
  exact (le_alignTo _ (by decide)).trans_eq (hpages _).symm

/-- Below 65536 pages the numbers of 32 bits are enough. -/
lemma layoutMemory_eq (hpos : ∀ s ∈ segments, 0 < s.alignment)
    (hfits : (layoutMemory 0 cfg segments).numMemoryPages < 65536) :
    layoutMemory (2 ^ 32) cfg segments = layoutMemory 0 cfg segments := by
  obtain ⟨hdata, hstatic, hinitial, hmemory, halign⟩ := layout_chain cfg hpos
  have hbound : (layoutMemory 0 cfg segments).numMemoryPages * wasmPageSize < 2 ^ 32 := by
    unfold wasmPageSize
    omega
  rw [halign] at hbound hmemory
  have hstart : dataStart (2 ^ 32) cfg = dataStart 0 cfg :=
    dataStart_eq (lt_of_le_of_lt (hdata.trans (hstatic.trans (hinitial.trans hmemory))) hbound)
  have hplaced := placeSegments_eq (w := 2 ^ 32) hpos
    (lt_of_le_of_lt (hstatic.trans (hinitial.trans hmemory)) hbound)
  have hend : staticEnd (2 ^ 32) cfg (layoutMemory 0 cfg segments).dataEnd = _ :=
    staticEnd_eq (lt_of_le_of_lt (hinitial.trans hmemory) hbound)
  change (placeSegments (2 ^ 32) (dataStart 0 cfg) segments) = _ at hplaced
  change staticEnd (2 ^ 32) cfg (placeSegments 0 (dataStart 0 cfg) segments).2 = _ at hend
  have hdef : (layoutMemory 0 cfg segments).dataEnd
      = (placeSegments 0 (dataStart 0 cfg) segments).2 := rfl
  rw [hdef] at hbound hend
  simp only [layoutMemory, Nat.mod_zero, hstart, hplaced, hend, Nat.mod_eq_of_lt hbound]

/-- Without a bound all areas are in order. -/
lemma layout_stacked (cfg : Config) (h : ∀ s ∈ segments, s.Laid) :
    Stacked (layoutMemory 0 cfg segments).dsoHandle
      ((layoutMemory 0 cfg segments).segments.flatMap (OutputSegment.areas 0))
      (layoutMemory 0 cfg segments).dataEnd := by
  refine stacked_flatMap (placed_stacked _ fun s hs => (h s hs).align_pos) fun s hs => ?_
  have hparts := stacked_shift s.startVA (placed_laid _ h s hs).1.stacked
  rw [OutputSegment.parts, List.map_map] at hparts
  unfold OutputSegment.areas OutputSegment.getVirtualAddress
  simp only [Nat.add_zero, Nat.mod_zero]
  exact hparts

/-- The addresses of the symbols are those of the layout without a bound. -/
lemma getVirtualAddress_eq (h : ∀ s ∈ segments, s.Laid)
    (hlt : (layoutMemory 0 cfg segments).dataEnd < w) :
    ∀ s ∈ (layoutMemory 0 cfg segments).segments, ∀ p ∈ s.inputSegments, ∀ i ≤ p.2.getSize,
      s.getVirtualAddress w p.1 i = s.startVA + p.1 + i := by
  intro s hs p hp i hi
  have harea := (layout_stacked cfg h).bounds.2 (s.getVirtualAddress 0 p.1 0, p.2.getSize)
    (List.mem_flatMap.mpr ⟨s, hs, List.mem_map_of_mem hp⟩)
  simp only [OutputSegment.getVirtualAddress, Nat.add_zero, Nat.mod_zero] at harea ⊢
  exact Nat.mod_eq_of_lt (by omega)

lemma dataEnd_lt (h : ∀ s ∈ segments, s.Laid)
    (hfits : (layoutMemory 0 cfg segments).numMemoryPages < 65536) :
    (layoutMemory 0 cfg segments).dataEnd < 2 ^ 32 := by
  obtain ⟨-, hstatic, hinitial, hmemory, -⟩ :=
    layout_chain cfg fun s hs => (h s hs).align_pos
  unfold wasmPageSize at hmemory
  omega

lemma dvd_stackSize (hrel : cfg.relocatable = false) (hok : stackErrors cfg = []) :
    16 ∣ cfg.zStackSize.toNat := by
  unfold stackErrors at hok
  split at hok
  · cases hok
  · rename_i hsize
    have heq : cfg.zStackSize.toNat = alignTo cfg.zStackSize.toNat 16 := by
      by_contra hne
      exact hsize ⟨by rw [hrel]; rfl, hne⟩
    rw [heq]
    exact dvd_alignTo _ _

lemma placeStack_zero (hrel : cfg.relocatable = false) (ptr : ℕ) :
    placeStack 0 cfg ptr = alignTo ptr 16 + cfg.zStackSize.toNat := by
  rw [placeStack, hrel]
  simp only [Bool.false_eq_true, if_false, Nat.mod_zero, kStackAlignment]

lemma withInitialMemory_ge (hok : initialErrors cfg ptr = []) :
    cfg.initialMemory.toNat ≤ withInitialMemory cfg ptr := by
  unfold initialErrors at hok
  unfold withInitialMemory
  split at hok
  · rename_i hzero
    omega
  · have hsmall := (List.append_eq_nil_iff.mp hok).2
    split at hsmall
    · cases hsmall
    · rw [if_neg (by omega)]

lemma pages_le (hok : maxErrors cfg ptr = []) (hmax : cfg.maxMemory ≠ 0) :
    alignTo ptr wasmPageSize / wasmPageSize ≤ cfg.maxMemory.toNat / wasmPageSize := by
  unfold maxErrors at hok
  split at hok
  · rename_i hzero
    exact absurd (UInt32.toNat.inj hzero) hmax
  · obtain ⟨haligned, hsmall⟩ := List.append_eq_nil_iff.mp hok
    split at haligned
    · cases haligned
    · rename_i heq
      split at hsmall
      · cases hsmall
      · refine Nat.div_le_div_right (alignTo_le (by decide) ?_ (by omega))
        rw [not_not.mp heq]
        exact dvd_alignTo _ _

/-- The layout without a bound is sound where it fits. -/
lemma layoutMemory_sound {inputs : List InputSegment} (h : ∀ s ∈ segments, s.Laid)
    (hperm : (inputsOf segments).Perm inputs)
    (hfits : (layoutMemory 0 cfg segments).numMemoryPages < 65536)
    (hok : (layoutMemory 0 cfg segments).errors = []) :
    (layoutMemory 0 cfg segments).Sound cfg inputs := by
  obtain ⟨hdata, hstatic, hinitial, hmemory, -⟩ :=
    layout_chain cfg fun s hs => (h s hs).align_pos
  obtain ⟨hok, hmaxErrors⟩ := List.append_eq_nil_iff.mp hok
  obtain ⟨hstackErrors, hinitialErrors⟩ := List.append_eq_nil_iff.mp hok
  have haddress := getVirtualAddress_eq h (dataEnd_lt h hfits)
  have hareas : (layoutMemory 0 cfg segments).segments.flatMap (OutputSegment.areas (2 ^ 32))
      = (layoutMemory 0 cfg segments).segments.flatMap (OutputSegment.areas 0) := by
    refine List.flatMap_congr fun s hs => List.map_congr_left fun p hp => ?_
    rw [haddress s hs p hp 0 (Nat.zero_le _), OutputSegment.getVirtualAddress, Nat.mod_zero]
  constructor
  · rwa [show inputsOf (layoutMemory 0 cfg segments).segments = _ from placeSegments_forget]
  · intro s hs p hp
    obtain ⟨hlaid, hstart⟩ := placed_laid _ h s hs
    obtain ⟨hoffset, hseg⟩ := hlaid.aligned p hp
    rw [haddress s hs p hp 0 (Nat.zero_le _), Nat.add_zero]
    exact Nat.dvd_add (hseg.trans hstart) hoffset
  · intro s hs p hp i hi
    rw [haddress s hs p hp i hi, haddress s hs p hp 0 (Nat.zero_le _), Nat.add_zero]
  · rw [hareas]
    exact layout_stacked cfg h
  · intro hfirst
    change dataStart 0 cfg = _
    rw [dataStart, hfirst]
    rfl
  · intro hrel
    have hsize := dvd_stackSize hrel hstackErrors
    cases hfirst : cfg.stackFirst with
    | true =>
      refine ⟨dataStart 0 cfg, staticEnd 0 cfg (layoutMemory 0 cfg segments).dataEnd,
        by simp [layoutMemory, hrel, hfirst], by simp [layoutMemory, hrel], ?_⟩
      have hstart : dataStart 0 cfg = cfg.zStackSize.toNat := by
        rw [dataStart, if_pos hfirst, placeStack_zero hrel]
        exact Nat.zero_add _
      exact ⟨hstart ▸ hsize, hstart.ge, hdata.trans hstatic, hstatic, hinitial.trans hmemory,
        .inl le_rfl⟩
    | false =>
      have hend : staticEnd 0 cfg (layoutMemory 0 cfg segments).dataEnd
          = alignTo (layoutMemory 0 cfg segments).dataEnd 16 + cfg.zStackSize.toNat := by
        rw [staticEnd, hfirst]
        exact placeStack_zero hrel _
      have hbehind := le_alignTo (layoutMemory 0 cfg segments).dataEnd
        (show 0 < 16 by decide)
      refine ⟨staticEnd 0 cfg (layoutMemory 0 cfg segments).dataEnd,
        staticEnd 0 cfg (layoutMemory 0 cfg segments).dataEnd, by simp [layoutMemory, hrel, hfirst],
        by simp [layoutMemory, hrel], ?_, by omega, le_rfl, hstatic, hinitial.trans hmemory,
        .inr (by omega)⟩
      rw [hend]
      exact Nat.dvd_add (dvd_alignTo _ _) hsize
  · refine ⟨hstatic.trans (hinitial.trans hmemory),
      (withInitialMemory_ge hinitialErrors).trans hmemory, fun hmax => ?_⟩
    have hpages := pages_le hmaxErrors hmax
    simp only [layoutMemory, Nat.mod_zero] at hpages ⊢
    exact hpages

end layout

/-- In a program that fits into the address space, the linker computes the layout without a bound. -/
lemma layoutFiles_eq {cfg : Config} {files : List (List InputSegment)}
    (hl : ∀ inSeg ∈ files.flatten.filter (·.live), ∃ k, inSeg.alignment = 2 ^ k)
    (hfits : (layoutFiles 0 cfg files).numMemoryPages < 65536) :
    layoutFiles (2 ^ 32) cfg files = layoutFiles 0 cfg files := by
  have hlaid : ∀ s ∈ createOutputSegments 0 cfg files, s.Laid := (collected_foldl cfg hl).1.laid
  have hpos : ∀ s ∈ createOutputSegments 0 cfg files, 0 < s.alignment :=
    fun s hs => (hlaid s hs).align_pos
  have hsizes : ∀ s ∈ createOutputSegments 0 cfg files, s.size < 2 ^ 32 := fun s hs =>
    ((le_placeSegments (dataStart 0 cfg) hpos).2 s hs).trans_lt (dataEnd_lt hlaid hfits)
  have hcreate : createOutputSegments (2 ^ 32) cfg files = createOutputSegments 0 cfg files :=
    foldl_addSegment_eq cfg hl hsizes
  rw [layoutFiles, hcreate, layoutMemory_eq hpos hfits, layoutFiles]

/-- In a program that fits into the address space, every live data segment of the object files has
an aligned area of its own, the stack and the heap are apart from the data, and the memory that the
contract asks for holds all of it. -/
theorem layoutFiles_sound (cfg : Config) (files : List (List InputSegment))
    (halign : ∀ inSeg ∈ files.flatten, inSeg.live = true → ∃ k, inSeg.alignment = 2 ^ k)
    (hfits : (layoutFiles 0 cfg files).numMemoryPages < 65536)
    (hok : (layoutFiles (2 ^ 32) cfg files).errors = []) :
    (layoutFiles (2 ^ 32) cfg files).Sound cfg (files.flatten.filter (·.live)) := by
  have hl : ∀ inSeg ∈ files.flatten.filter (·.live), ∃ k, inSeg.alignment = 2 ^ k := by
    intro inSeg hmem
    obtain ⟨hmem, hlive⟩ := List.mem_filter.mp hmem
    exact halign inSeg hmem hlive
  obtain ⟨hcollected, hperm⟩ := collected_foldl cfg hl
  rw [layoutFiles_eq hl hfits] at hok ⊢
  exact layoutMemory_sound hcollected.laid hperm hfits hok

/-- One file with a live string, a live table that has the address of it, and a segment that is not
used. -/
def layoutExample : List (List InputSegment) :=
  [[⟨".rodata.name", 1, ⟨[0x68, 0x69, 0x00], 0, [], fun _ => 0⟩, true⟩,
    ⟨".bss.unused", 4, ⟨[0, 0, 0, 0], 3, [], fun _ => 0⟩, false⟩,
    ⟨".data.table", 8, ⟨[1, 2, 3, 4, 5, 6, 7, 8], 7, [⟨⟨.memoryAddrI32, 0⟩, 9, 0⟩], fun _ => 8192⟩,
      true⟩]]

/-- The options of a contract: a stack of 8192 bytes in front of the data. -/
def layoutConfig : Config := ⟨false, true, true, 1024, 8192, 0, 0⟩

lemma layoutExample_aligned : ∀ inSeg ∈ layoutExample.flatten, inSeg.live = true →
    ∃ k, inSeg.alignment = 2 ^ k := by
  intro inSeg hmem _
  rcases List.mem_cons.mp hmem with rfl | hmem
  · exact ⟨0, rfl⟩
  · rcases List.mem_pair.mp hmem with rfl | rfl
    · exact ⟨2, rfl⟩
    · exact ⟨3, rfl⟩

theorem layoutFiles_sound_example :
    (layoutFiles (2 ^ 32) layoutConfig layoutExample).Sound layoutConfig
      (layoutExample.flatten.filter (·.live)) :=
  layoutFiles_sound layoutConfig layoutExample layoutExample_aligned (by decide) (by decide)

end UosioCdt.Link
