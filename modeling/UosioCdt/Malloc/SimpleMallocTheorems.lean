import UosioCdt.Malloc.SimpleMalloc
import Mathlib.Data.Nat.Bitwise

/-!
# Theorems: runs of the bump allocator

A run is safe as long as no block and its padding end exactly with the address space: there the
last pointer wraps to 0 and the page that the block needs is not asked for.
-/

namespace UosioCdt.Malloc

open Bump

/-! ## Words -/

/-- Masking the low three bits rounds down to a multiple of 8. -/
lemma and_mask (n : ℕ) (hn : n < 2 ^ 32) : n &&& 4294967288 = n / 8 * 8 := by
  have hlow : (n &&& 4294967288) % 2 ^ 3 = 0 := by
    rw [Nat.and_mod_two_pow]
    simp
  have hhigh : (n &&& 4294967288) >>> 3 = n / 8 := by
    rw [Nat.shiftRight_and_distrib, Nat.shiftRight_eq_div_pow]
    have hmask : (4294967288 >>> 3 : ℕ) = 2 ^ 29 - 1 := by decide
    rw [hmask, Nat.and_two_pow_sub_one_eq_mod]
    apply Nat.mod_eq_of_lt
    omega
  rw [Nat.shiftRight_eq_div_pow] at hhigh
  omega

lemma align_toNat (p : UInt32) : (align p 8).toNat = (p.toNat + 7) % 2 ^ 32 / 8 * 8 := by
  have hmask : ~~~((8 : UInt8).toUInt32 - 1) = 4294967288 := by decide
  unfold align
  rw [hmask, UInt32.toNat_and]
  show _ &&& 4294967288 = _
  rw [and_mask _ (UInt32.toNat_lt _)]
  have hsum : (p + (8 : UInt8).toUInt32 - 1).toNat = (p.toNat + 7) % 2 ^ 32 := by
    rw [UInt32.toNat_sub, UInt32.toNat_add]
    have hp := p.toNat_lt
    have h8 : (8 : UInt8).toUInt32.toNat = 8 := by decide
    have h1 : (1 : UInt32).toNat = 1 := by decide
    rw [h8, h1]
    omega
  rw [hsum]

lemma shiftRight_toNat (p : UInt32) : (p >>> 16).toNat = p.toNat / 65536 := by
  simp [UInt32.toNat_shiftRight, Nat.shiftRight_eq_div_pow]

lemma shiftLeft_toNat (p : UInt32) : (p <<< 16).toNat = p.toNat * 65536 % 2 ^ 32 := by
  simp [UInt32.toNat_shiftLeft, Nat.shiftLeft_eq]

lemma ofNat_toNat {n : ℕ} (hn : n ≤ maxPages) : (UInt32.ofNat n).toNat = n := by
  unfold maxPages at hn
  apply UInt32.toNat_ofNat_of_lt'
  show n < 2 ^ 32
  omega

/-- The pages before are never mistaken for a refusal. -/
lemma growMemory_ne {pages : ℕ} {n : UInt32} {granted : Bool} (hp : pages ≤ maxPages) :
    (growMemory pages n granted).1 ≠ -1 ↔ granted = true ∧ pages + n.toNat ≤ maxPages := by
  unfold growMemory
  split
  · rename_i h
    simp only [h, and_self, iff_true]
    intro heq
    have hnat := congrArg UInt32.toNat heq
    rw [ofNat_toNat hp] at hnat
    have hneg : (-1 : UInt32).toNat = 4294967295 := by decide
    unfold maxPages at hp
    omega
  · rename_i h
    simp [h]

/-- The check behind a call, when the words are the numbers that they stand for. -/
lemma grow_eq {pages w : ℕ} {n heap lastPtr nextPage ret : UInt32} {granted : Bool}
    (hpages : pages ≤ maxPages) (hn : n.toNat = w) (hnext : nextPage.toNat = (pages + w) % 2 ^ 32) :
    (if (growMemory pages n granted).1 ≠ -1 then
        some (ret, (⟨⟨heap, lastPtr, nextPage⟩, (growMemory pages n granted).2⟩ : Bump))
      else none) =
      if granted = true ∧ pages + w ≤ maxPages then
        some (ret, ⟨⟨heap, lastPtr, UInt32.ofNat (pages + w)⟩, pages + w⟩)
      else none := by
  subst hn
  by_cases hgrant : granted = true ∧ pages + n.toNat ≤ maxPages
  · rw [if_pos ((growMemory_ne hpages).2 hgrant), if_pos hgrant]
    have hnat := hgrant.2
    unfold maxPages at hnat
    have hword : nextPage = UInt32.ofNat (pages + n.toNat) := by
      apply UInt32.toNat_inj.1
      rw [ofNat_toNat hgrant.2, hnext]
      omega
    rw [hword]
    unfold growMemory
    rw [if_pos hgrant]
  · rw [if_neg (mt (growMemory_ne hpages).1 hgrant), if_neg hgrant]

/-! ## One call -/

namespace Bump

/-- What the allocator keeps between calls: no block ends behind the last pointer. -/
structure Inv (s : Bump) (blocks : List Extent) : Prop where
  safe : s.Safe blocks
  lastPtr_aligned : s.dsmalloc.lastPtr.toNat % 8 = 0
  behind : ∀ b ∈ blocks, b.ptr.toNat + b.size.toNat ≤ s.dsmalloc.lastPtr.toNat
  pages_le : s.pages ≤ maxPages

/-- The end of the block with its padding, which may lie outside the address space. -/
def stop (s : Bump) (size : UInt32) : ℕ := s.dsmalloc.lastPtr.toNat + (size.toNat + 7) / 8 * 8

/-- The pages that a call asks for. -/
def wanted (s : Bump) (size : UInt32) : ℕ :=
  if (s.dsmalloc.nextPage.toNat + size.toNat / 65536) * 65536 % 2 ^ 32 ≤ s.stop size % 2 ^ 32 then
    size.toNat / 65536 + 1
  else size.toNat / 65536

/-- The state behind a call that returns. -/
def next (s : Bump) (size : UInt32) : Bump where
  dsmalloc := ⟨s.dsmalloc.heap, align (s.dsmalloc.lastPtr + size) 8,
    UInt32.ofNat (s.pages + s.wanted size)⟩
  pages := s.pages + s.wanted size

variable {s s' : Bump} {size ret : UInt32} {granted : Bool} {blocks : List Extent}

lemma Inv.next_lastPtr (h : s.Inv blocks) (size : UInt32) :
    (s.next size).dsmalloc.lastPtr.toNat = s.stop size % 2 ^ 32 := by
  have hal := h.lastPtr_aligned
  show (align (s.dsmalloc.lastPtr + size) 8).toNat = _
  rw [align_toNat, UInt32.toNat_add]
  unfold stop
  omega

/-- A call in numbers. -/
lemma Inv.call_eq (h : s.Inv blocks) (hsize : 1 ≤ size.toNat) :
    s.call size 8 granted =
      if granted = true ∧ s.pages + s.wanted size ≤ maxPages then
        some (s.dsmalloc.lastPtr, s.next size)
      else none := by
  have hne : size ≠ 0 := by
    intro h0
    rw [h0] at hsize
    simp at hsize
  have hpages := h.pages_le
  have hnext := h.safe.nextPage_eq
  have hlast := h.next_lastPtr size
  have hlt := size.toNat_lt
  -- the comparison of the source is the one on numbers
  have hmore : ((s.dsmalloc.nextPage + size >>> 16) <<< 16 ≤ align (s.dsmalloc.lastPtr + size) 8) ↔
      (s.dsmalloc.nextPage.toNat + size.toNat / 65536) * 65536 % 2 ^ 32 ≤ s.stop size % 2 ^ 32 := by
    rw [UInt32.le_iff_toNat_le, shiftLeft_toNat, UInt32.toNat_add, shiftRight_toNat, ← hlast]
    show _ ≤ (s.next size).dsmalloc.lastPtr.toNat ↔ _
    omega
  unfold call
  rw [if_neg hne]
  simp only [decide_eq_true_eq]
  by_cases hm : (s.dsmalloc.nextPage.toNat + size.toNat / 65536) * 65536 % 2 ^ 32 ≤
      s.stop size % 2 ^ 32
  · have hwanted : s.wanted size = size.toNat / 65536 + 1 := if_pos hm
    have hn : (size >>> 16 + 1).toNat = s.wanted size := by
      rw [UInt32.toNat_add, shiftRight_toNat, hwanted, UInt32.toNat_one]
      omega
    rw [if_pos (hmore.2 hm), if_pos (hmore.2 hm)]
    apply grow_eq hpages hn
    rw [UInt32.toNat_add, UInt32.toNat_add, shiftRight_toNat, hnext, hwanted, UInt32.toNat_one]
    omega
  · have hwanted : s.wanted size = size.toNat / 65536 := if_neg hm
    have hn : (size >>> 16).toNat = s.wanted size := by
      rw [shiftRight_toNat, hwanted]
    rw [if_neg (mt hmore.1 hm), if_neg (mt hmore.1 hm)]
    apply grow_eq hpages hn
    rw [UInt32.toNat_add, shiftRight_toNat, hnext, hwanted]

/-! ## Which calls return -/

/-- A memory of all the pages cannot grow, and the last pointer would not show it: a call that
reaches the last page is refused. -/
lemma Inv.refused (h : s.Inv blocks)
    (hfull : 65536 ≤ s.pages + size.toNat / 65536) : maxPages < s.pages + s.wanted size := by
  have hpages := h.pages_le
  have hnext := h.safe.nextPage_eq
  unfold maxPages at *
  unfold wanted
  split
  · omega
  · rename_i hm
    -- exactly 65536 pages are 0 bytes as a word, so here there are more
    rw [hnext] at hm
    omega

/-- The block fits when it ends in front of the end of the address space. -/
lemma Inv.fits (h : s.Inv blocks) (hfull : s.pages + size.toNat / 65536 < 65536)
    (hstop : s.stop size < 2 ^ 32) :
    s.stop size ≤ (s.pages + s.wanted size) * 65536 ∧ s.pages + s.wanted size ≤ maxPages := by
  have hlast := h.safe.lastPtr_le
  have hnext := h.safe.nextPage_eq
  rw [hnext] at hlast
  unfold maxPages wanted
  rw [hnext]
  split
  · unfold stop at *
    omega
  · omega

/-- The block that ends with the address space: no page is asked for it, and it ends outside the
memory. -/
lemma Inv.overrun (h : s.Inv blocks) (hfull : s.pages + size.toNat / 65536 < 65536)
    (hstop : 2 ^ 32 ≤ s.stop size) :
    s.pages + s.wanted size ≤ maxPages ∧
      (s.pages + s.wanted size) * 65536 < s.dsmalloc.lastPtr.toNat + size.toNat := by
  have hlast := h.safe.lastPtr_le
  have hnext := h.safe.nextPage_eq
  rw [hnext] at hlast
  -- the pages that are there leave only one place for the end
  have hend : s.stop size = 2 ^ 32 := by
    unfold stop at *
    omega
  have hlarge : 0 < s.pages + size.toNat / 65536 := by
    unfold stop at hend
    omega
  have hwanted : s.wanted size = size.toNat / 65536 := by
    unfold wanted
    rw [hend, hnext]
    apply if_neg
    omega
  rw [hwanted]
  unfold stop at hend
  unfold maxPages
  omega

/-! ## Runs -/

/-- The block of a call that is granted and does not overrun ends in the address space. -/
lemma Inv.stop_lt (h : s.Inv blocks) {r : Request} (hover : ¬ Overruns s r)
    (hgrant : r.granted = true ∧ s.pages + s.wanted r.size ≤ maxPages) :
    s.pages + r.size.toNat / 65536 < 65536 ∧ s.stop r.size < 2 ^ 32 := by
  have hfull : s.pages + r.size.toNat / 65536 < 65536 := by
    by_contra hfull
    have := h.refused (not_lt.1 hfull)
    omega
  refine ⟨hfull, ?_⟩
  by_contra hstop
  rw [← h.safe.nextPage_eq] at hfull
  exact hover ⟨not_lt.1 hstop, hfull, hgrant.1⟩

/-- A call that does not overrun keeps everything. -/
lemma Inv.step (h : s.Inv blocks) {r : Request} (hsize : 1 ≤ r.size.toNat)
    (hover : ¬ Overruns s r) (hstep : s.step r = some (ret, s')) :
    s'.Inv (⟨ret, r.size⟩ :: blocks) := by
  unfold Bump.step at hstep
  rw [h.call_eq hsize] at hstep
  split at hstep
  · rename_i hgrant
    cases hstep
    obtain ⟨hfull, hstop⟩ := h.stop_lt hover hgrant
    have hlast : (s.next r.size).dsmalloc.lastPtr.toNat = s.stop r.size := by
      rw [h.next_lastPtr, Nat.mod_eq_of_lt hstop]
    have hnext : (s.next r.size).dsmalloc.nextPage.toNat = (s.next r.size).pages :=
      ofNat_toNat hgrant.2
    have hfits := (h.fits hfull hstop).1
    have hblock : s.dsmalloc.lastPtr.toNat + r.size.toNat ≤ s.stop r.size := by
      unfold stop
      omega
    have hgrow : s.pages * 65536 ≤ (s.next r.size).pages * 65536 := by
      show s.pages * 65536 ≤ (s.pages + s.wanted r.size) * 65536
      omega
    refine ⟨⟨?_, ?_, ?_, ?_, hnext⟩, ?_, ?_, hgrant.2⟩
    · intro b hb
      rcases List.mem_cons.1 hb with hb | hb
      · rw [hb]
        exact h.lastPtr_aligned
      · exact h.safe.aligned b hb
    · intro b hb
      rcases List.mem_cons.1 hb with hb | hb
      · rw [hb]
        exact le_trans hblock hfits
      · exact le_trans (h.safe.inside b hb) hgrow
    · apply List.Pairwise.cons
      · intro b hb
        -- every other block ends in front of the new one
        exact Or.inr (h.behind b hb)
      · exact h.safe.apart
    · rw [hlast, hnext]
      exact hfits
    · rw [hlast]
      have hal := h.lastPtr_aligned
      unfold stop
      omega
    · intro b hb
      rw [hlast]
      rcases List.mem_cons.1 hb with hb | hb
      · rw [hb]
        exact hblock
      · have hle := h.behind b hb
        unfold stop
        omega
  · cases hstep

/-- A call that overruns returns a block that leaves the memory. -/
lemma Inv.unsafe_of_overruns (h : s.Inv blocks) {r : Request} (hsize : 1 ≤ r.size.toNat)
    (hover : Overruns s r) :
    ∃ ret s', s.step r = some (ret, s') ∧ ¬ s'.Safe (⟨ret, r.size⟩ :: blocks) := by
  have hfull := hover.2.1
  rw [h.safe.nextPage_eq] at hfull
  have hbeyond := h.overrun hfull hover.1
  refine ⟨s.dsmalloc.lastPtr, s.next r.size, ?_, ?_⟩
  · unfold Bump.step
    rw [h.call_eq hsize]
    exact if_pos ⟨hover.2.2, hbeyond.1⟩
  · intro hsafe
    have hin := hsafe.inside _ List.mem_cons_self
    exact absurd hin (not_le.2 hbeyond.2)

lemma Inv.start {heapBase : UInt32} {pages : ℕ} (hbase : heapBase.toNat ≤ pages * 65536)
    (hpages : pages ≤ maxPages) : (Bump.start heapBase pages).Inv [] := by
  have hal : (align heapBase 8).toNat = (heapBase.toNat + 7) % 2 ^ 32 / 8 * 8 := align_toNat heapBase
  have hnext : (UInt32.ofNat pages).toNat = pages := ofNat_toNat hpages
  refine ⟨⟨?_, ?_, List.Pairwise.nil, ?_, hnext⟩, ?_, ?_, hpages⟩
  · intro b hb
    cases hb
  · intro b hb
    cases hb
  · show (align heapBase 8).toNat ≤ (UInt32.ofNat pages).toNat * 65536
    rw [hal, hnext]
    omega
  · show (align heapBase 8).toNat % 8 = 0
    rw [hal]
    omega
  · intro b hb
    cases hb

/-- From a state with the invariant, everything stays safe exactly when no call overruns. -/
lemma Inv.alwaysSafe_iff (h : s.Inv blocks) (reqs : List Request)
    (hsizes : ∀ r ∈ reqs, 1 ≤ r.size.toNat) :
    AlwaysSafe s blocks reqs ↔ Along (fun s r => ¬ Overruns s r) s reqs := by
  induction reqs generalizing s blocks with
  | nil => exact Iff.rfl
  | cons r rs ih =>
    have hsize := hsizes r List.mem_cons_self
    have hrest : ∀ q ∈ rs, 1 ≤ q.size.toNat := fun q hq => hsizes q (List.mem_cons_of_mem r hq)
    constructor
    · intro hsafe
      -- a call that overruns would return an unsafe block
      have hover : ¬ Overruns s r := by
        intro hover
        obtain ⟨ret, s', hstep, hunsafe⟩ := h.unsafe_of_overruns hsize hover
        exact hunsafe (hsafe ret s' hstep).1
      refine ⟨hover, ?_⟩
      intro ret s' hstep
      exact (ih (h.step hsize hover hstep) hrest).1 (hsafe ret s' hstep).2
    · intro hall ret s' hstep
      have hinv := h.step hsize hall.1 hstep
      exact ⟨hinv.safe, (ih hinv hrest).2 (hall.2 ret s' hstep)⟩

/-- The bump allocator keeps all blocks apart and inside the memory as long as no block ends, with
its padding, exactly at the end of the address space. -/
theorem alwaysSafe_iff_along (heapBase : UInt32) (pages : ℕ) (reqs : List Request)
    (hbase : heapBase.toNat ≤ pages * 65536) (hpages : pages ≤ maxPages)
    (hsizes : ∀ r ∈ reqs, 1 ≤ r.size.toNat ∧ r.size.toNat ≤ 2 ^ 31) :
    AlwaysSafe (start heapBase pages) [] reqs ↔
      Along (fun s r => ¬ Overruns s r) (start heapBase pages) reqs :=
  (Inv.start hbase hpages).alwaysSafe_iff reqs fun r hr => (hsizes r hr).1

/-- Two pages, and a first block that spans two more. -/
theorem alwaysSafe_iff_along_two :
    AlwaysSafe (start 66568 2) [] [⟨131072, true⟩, ⟨65536, false⟩] ↔
      Along (fun s r => ¬ Overruns s r) (start 66568 2) [⟨131072, true⟩, ⟨65536, false⟩] :=
  alwaysSafe_iff_along 66568 2 _ (by decide) (by decide) (by decide)

/-- The heap starts in the last byte of two pages. The second block ends in the
last page of the address space, which the memory does not have. -/
theorem exists_unsafe_run :
    ∃ (heapBase : UInt32) (pages : ℕ) (reqs : List Request),
      heapBase.toNat < pages * 65536 ∧ pages ≤ maxPages ∧
        (∀ r ∈ reqs, 1 ≤ r.size.toNat ∧ r.size.toNat ≤ 2 ^ 31) ∧
        ¬ AlwaysSafe (start heapBase pages) [] reqs := by
  refine ⟨131071, 2, [⟨2147483647, true⟩, ⟨2147352575, true⟩], by decide, by decide, by decide, ?_⟩
  intro hsafe
  have hlast := ((hsafe 131072 _ rfl).2 2147614720 _ rfl).1
  have hin := hlast.inside _ List.mem_cons_self
  exact absurd hin (by decide)

end Bump

end UosioCdt.Malloc
