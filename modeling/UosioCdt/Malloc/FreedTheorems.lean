import UosioCdt.Malloc.MergeTheorems

/-!
# `malloc_from_freed`

In a full heap the loop ends, and gives a block of the asked size or only merges free blocks.
-/

namespace UosioCdt.Malloc

open Tiling

/-- What a request does to the used blocks: nothing, or one block more. -/
def Gives (bs bs' : List Block) (size : ℕ) : Option ℕ → Prop
  | none => ∀ b, Used bs' b ↔ Used bs b
  | some p => ∃ d : Block, d.ptr = p ∧ d.size = size ∧ ¬ Used bs d ∧
      ∀ b, Used bs' b ↔ Used bs b ∨ b = d

/-- The payloads of the used blocks keep their bytes. -/
def KeepsUsed (m m' : Mem) (bs : List Block) : Prop :=
  ∀ b, Used bs b → ∀ x, b.ptr ≤ x → x < b.stop → m' x = m x

section used

variable {xs ys fs zs rest : List Block} {b c d : Block}

/-- Free blocks in the middle do not matter. -/
lemma used_middle (xs ys : List Block) {mid : List Block} (hmid : ∀ d ∈ mid, d.used = false) :
    Used (xs ++ mid ++ ys) b ↔ Used xs b ∨ Used ys b := by
  simp only [Used, List.mem_append]
  constructor
  · rintro ⟨(hb | hb) | hb, hused⟩
    · exact .inl ⟨hb, hused⟩
    · rw [hmid b hb] at hused
      cases hused
    · exact .inr ⟨hb, hused⟩
  · rintro (⟨hb, hused⟩ | ⟨hb, hused⟩)
    · exact ⟨.inl (.inl hb), hused⟩
    · exact ⟨.inr hb, hused⟩

/-- Blocks are taken out of the middle and a used one is put there. -/
lemma used_insert (xs ys : List Block) (hd : d.used = true) (hrest : ∀ e ∈ rest, e.used = false) :
    Used (xs ++ (d :: rest) ++ ys) b ↔ (Used xs b ∨ Used ys b) ∨ b = d := by
  rw [← used_middle xs ys hrest]
  simp only [Used, List.mem_append, List.mem_cons]
  constructor
  · rintro ⟨(hb | rfl | hb) | hb, hused⟩
    · exact .inl ⟨.inl (.inl hb), hused⟩
    · exact .inr rfl
    · exact .inl ⟨.inl (.inr hb), hused⟩
    · exact .inl ⟨.inr hb, hused⟩
  · rintro (⟨(hb | hb) | hb, hused⟩ | rfl)
    · exact ⟨.inl (.inl hb), hused⟩
    · exact ⟨.inl (.inr (.inr hb)), hused⟩
    · exact ⟨.inr hb, hused⟩
    · exact ⟨.inl (.inr (.inl rfl)), hd⟩

/-- A used block behind the others. -/
lemma gives_append {xs : List Block} (hd : d.used = true) (hnew : ¬ Used xs d) :
    Gives xs (xs ++ [d]) d.size (some d.ptr) := by
  refine ⟨d, rfl, rfl, hnew, fun b => ?_⟩
  have hins := used_insert (b := b) xs [] hd
    fun e (he : e ∈ []) => absurd he List.not_mem_nil
  rw [List.append_nil] at hins
  rw [hins]
  simp [Used]

end used

section freedLoop

variable {m : Mem} {h : Heap} {xs ys : List Block} {c : Block} {size : ℕ}

lemma Laid.length_lt {bs : List Block} (hl : Laid m h bs) : bs.length < loopBound := by
  have hlen := hl.tiled.length_le
  have hend := hl.end_lt
  have hoff := hl.offset_le
  unfold loopBound
  omega

/-- `next_ptr` is the next block of a full heap. -/
lemma Laid.nextPtr (hl : Laid m h (xs ++ c :: ys)) (hfull : h.offset = h.heapSize) :
    BufferPtr.nextPtr ⟨c.ptr, c.size, h.heapEnd⟩ = ys.head?.map Block.ptr := by
  obtain ⟨a, hptr, -, hin, -, -, hys⟩ := hl.tag_block
  have hend := hl.end_lt
  have hstop : wrap (c.ptr + c.size) = c.stop := by
    unfold wrap Block.stop
    omega
  have hnext : wrap (c.stop + sizeMarker) = c.stop + 4 := by
    unfold wrap sizeMarker Block.stop
    omega
  unfold BufferPtr.nextPtr BufferPtr.stop
  simp only [hstop, hnext, hl.heapEnd_eq]
  cases ys with
  | nil =>
    have hat : c.stop = h.heap + h.offset := hys
    rw [if_pos (by omega)]
    rfl
  | cons d ys =>
    obtain ⟨hd, -, hys⟩ := hys
    have hle := hys.le
    have hsize := hl.sizes d (by simp)
    unfold Block.stop at hle hd ⊢
    rw [if_neg (by omega), ← hd]
    rfl

/-- Merging behind a free block of a full heap. -/
lemma Laid.mergeFree (hl : Laid m h (xs ++ c :: ys)) (hfull : h.offset = h.heapSize)
    (hfree : c.used = false) (hsize : size % 8 = 4) (hlt : size < 2 ^ 31) :
    ∃ r rest zs m', mergeContiguous m ⟨c.ptr, c.size, h.heapEnd⟩ size false
        = .ok (decide (size ≤ r), ⟨c.ptr, min r size, h.heapEnd⟩, m') ∧
      Laid m' h (xs ++ (⟨c.ptr, min r size, false⟩ :: rest) ++ zs) ∧
      (∀ d ∈ rest, d.used = false) ∧ (r < size → rest = []) ∧ zs.length ≤ ys.length ∧
      (∀ b, Used (xs ++ c :: ys) b ↔ Used xs b ∨ Used zs b) ∧ KeepsUsed m m' (xs ++ c :: ys) ∧
      ∀ x, x < h.heap ∨ h.heap + h.heapSize ≤ x → m' x = m x := by
  obtain ⟨a, hptr, htag, hin, ha, hxs, hys⟩ := hl.tag_block
  have hend := hl.end_lt
  have hlen := hl.length_lt
  have hclt := tag_snd_lt m a
  rw [htag] at hclt
  simp only [List.length_append, List.length_cons] at hlen
  have he : h.heap + h.offset = h.heapEnd := by rw [hl.heapEnd_eq, hfull]
  have hE : h.heapEnd < 2 ^ 32 := by omega
  have hfuel : ys.length < loopBound := by omega
  obtain ⟨r, fs, zs, hloop, rfl, hfs, hfst, hzst, hr, -⟩ :=
    mergeLoop_spec ⟨c.ptr, c.size, h.heapEnd⟩ size hys he.le hE hfuel (.inl he) (by omega)
  change Tiled (tag m) 4 c.stop fs (c.ptr + r) at hfst
  change Tiled (tag m) 4 (c.ptr + r) zs (h.heap + h.offset) at hzst
  obtain ⟨rest, m', hcomb, hrest, hnone, hlaid, hframe⟩ :=
    hl.combine hxs hptr (by rw [htag]) hfst hzst hsize hlt hr c.size h.heapEnd
  have hmerge : mergeContiguous m ⟨c.ptr, c.size, h.heapEnd⟩ size false
      = .ok (decide (size ≤ r), ⟨c.ptr, min r size, h.heapEnd⟩, m') := by
    unfold mergeContiguous
    simp only [Bool.false_eq_true, false_and, if_false]
    rw [hloop, ← hcomb]
    rfl
  have hused (b : Block) : Used (xs ++ c :: (fs ++ zs)) b ↔ Used xs b ∨ Used zs b := by
    have hmid : ∀ d ∈ c :: fs, d.used = false := by
      intro d hd
      rcases List.mem_cons.mp hd with rfl | hd
      · exact hfree
      · exact hfs d hd
    have h := used_middle (b := b) xs zs hmid
    rwa [List.append_assoc, List.cons_append] at h
  rw [hfree] at hlaid
  refine ⟨r, rest, zs, m', hmerge, hlaid, hrest, hnone, by simp, hused, ?_, ?_⟩
  · intro b hb x hx hlt
    refine hframe x ?_
    rcases (hused b).mp hb with hb | hb
    · have hbd := hxs.bounds hb.1
      exact .inl (by omega)
    · have hbd := hzst.bounds hb.1
      exact .inr (.inr (by omega))
  · intro x hx
    have hle := hzst.le
    exact hframe x (by omega)

lemma freedLoop_none (heapEnd fuel : ℕ) : Heap.freedLoop heapEnd size fuel m none = .ok (none, m) := by
  cases fuel <;> rfl

/-- What the loop leaves behind, when it started with the blocks `bs`. -/
def FreedResult (m : Mem) (h : Heap) (bs : List Block) (size : ℕ) (res : Option ℕ × Mem) : Prop :=
  ∃ bs', Laid res.2 h bs' ∧ Gives bs bs' size res.1 ∧ KeepsUsed m res.2 bs ∧
    ∀ x, x < h.heap ∨ h.heap + h.heapSize ≤ x → res.2 x = m x

/-- The loop goes on in a heap with the same used blocks. -/
lemma FreedResult.of_same {m' : Mem} {bs bs' : List Block} {res : Option ℕ × Mem}
    (hres : FreedResult m' h bs' size res) (hused : ∀ b, Used bs' b ↔ Used bs b)
    (hkeep : KeepsUsed m m' bs) (hout : ∀ x, x < h.heap ∨ h.heap + h.heapSize ≤ x → m' x = m x) :
    FreedResult m h bs size res := by
  obtain ⟨bs'', hl, hgives, hkeep', hout'⟩ := hres
  refine ⟨bs'', hl, ?_, ?_, fun x hx => (hout' x hx).trans (hout x hx)⟩
  · obtain ⟨r, m''⟩ := res
    cases r with
    | none => exact fun b => (hgives b).trans (hused b)
    | some p =>
      obtain ⟨d, hptr, hd, hnew, hiff⟩ := hgives
      refine ⟨d, hptr, hd, fun h => hnew ((hused d).mpr h), fun b => ?_⟩
      rw [hiff b, hused b]
  · intro b hb x hx hlt
    rw [hkeep' b ((hused b).mpr hb) x hx hlt, hkeep b hb x hx hlt]

/-- A used block is skipped. -/
lemma freedLoop_used {fuel : ℕ} (hl : Laid m h (xs ++ c :: ys)) (hfull : h.offset = h.heapSize)
    (hused : c.used = true) :
    Heap.freedLoop h.heapEnd size (fuel + 1) m (some c.ptr)
      = Heap.freedLoop h.heapEnd size fuel m (ys.head?.map Block.ptr) := by
  obtain ⟨a, hptr, htag, hin, -, -, -⟩ := hl.tag_block
  have hend := hl.end_lt
  have hoff := hl.offset_le
  rw [Heap.freedLoop, isAlloc_eq hptr (by omega), bufferAt_eq hptr (by omega), htag, hused,
    if_pos rfl, hl.nextPtr hfull]

/-- At a free block the loop merges, and is done or goes on behind it. -/
lemma freedLoop_free {fuel : ℕ} (hl : Laid m h (xs ++ c :: ys)) (hfull : h.offset = h.heapSize)
    (hfree : c.used = false) {done : Bool} {n : ℕ} {m' : Mem}
    (hmerge : mergeContiguous m ⟨c.ptr, c.size, h.heapEnd⟩ size false
      = .ok (done, ⟨c.ptr, n, h.heapEnd⟩, m')) :
    Heap.freedLoop h.heapEnd size (fuel + 1) m (some c.ptr)
      = if done then .ok (some c.ptr, markAlloc m' c.ptr)
        else Heap.freedLoop h.heapEnd size fuel m' (BufferPtr.nextPtr ⟨c.ptr, n, h.heapEnd⟩) := by
  obtain ⟨a, hptr, htag, hin, -, -, -⟩ := hl.tag_block
  have hend := hl.end_lt
  have hoff := hl.offset_le
  rw [Heap.freedLoop, isAlloc_eq hptr (by omega), bufferAt_eq hptr (by omega), htag, hfree,
    if_neg Bool.false_ne_true, hmerge]
  cases done <;> rfl

/-- The block that was merged to the size is allocated. -/
lemma Laid.freedResult_alloc {r : ℕ} {rest zs : List Block} {m' : Mem}
    (hl : Laid m h (xs ++ c :: ys)) (hfree : c.used = false) (hdone : size ≤ r)
    (hlaid : Laid m' h (xs ++ (⟨c.ptr, min r size, false⟩ :: rest) ++ zs))
    (hrest : ∀ d ∈ rest, d.used = false)
    (hiff : ∀ b, Used (xs ++ c :: ys) b ↔ Used xs b ∨ Used zs b)
    (hkeep : KeepsUsed m m' (xs ++ c :: ys))
    (hout : ∀ x, x < h.heap ∨ h.heap + h.heapSize ≤ x → m' x = m x) :
    FreedResult m h (xs ++ c :: ys) size (some c.ptr, markAlloc m' c.ptr) := by
  have hmin : min r size = size := by omega
  rw [hmin, List.append_assoc, List.cons_append] at hlaid
  obtain ⟨a, hptr, htag, hin, ha, hxs, hys⟩ := hlaid.tag_block
  change c.ptr = a + 4 at hptr
  change c.ptr + size ≤ h.heap + h.offset at hin
  have hend := hlaid.end_lt
  have hoff := hlaid.offset_le
  have hmark := retags_markAlloc (m := m') hptr (by omega)
  rw [htag] at hmark
  have hlaid' : Laid (markAlloc m' c.ptr) h (xs ++ ⟨c.ptr, size, true⟩ :: (rest ++ zs)) :=
    hlaid.retag hptr hmark
  unfold FreedResult
  generalize markAlloc m' c.ptr = m'' at hmark hlaid' ⊢
  refine ⟨_, hlaid', ⟨⟨c.ptr, size, true⟩, rfl, rfl, ?_, ?_⟩, ?_, ?_⟩
  · intro hold
    have heq := hl.tiled.eq_of_ptr_eq (by decide) hold.1 (List.mem_append_right xs List.mem_cons_self)
      rfl
    rw [← heq] at hfree
    cases hfree
  · intro b
    have hins := used_insert (b := b) (d := ⟨c.ptr, size, true⟩) xs zs rfl hrest
    rw [List.append_assoc, List.cons_append] at hins
    rw [hins, hiff b]
  · intro b hb x hx hlt
    rw [← hkeep b hb x hx hlt]
    refine hmark.outside x ?_
    rcases (hiff b).mp hb with hb | hb
    · have hbd := hxs.bounds hb.1
      omega
    · have hbd := hys.bounds (List.mem_append_right rest hb.1)
      change c.ptr + size + 4 ≤ b.ptr ∧ _ at hbd
      omega
  · intro x hx
    rw [← hout x hx]
    exact hmark.outside x (by omega)

/-- The loop ends, from any block of a full heap. -/
lemma freedLoop_spec {fuel : ℕ} {xs ys : List Block} (hl : Laid m h (xs ++ c :: ys)) (hfull : h.offset = h.heapSize)
    (hsize : size % 8 = 4) (hlt : size < 2 ^ 31) (hfuel : ys.length < fuel) :
    ∃ res, Heap.freedLoop h.heapEnd size fuel m (some c.ptr) = .ok res ∧
      FreedResult m h (xs ++ c :: ys) size res := by
  induction fuel generalizing m xs c ys with
  | zero => omega
  | succ fuel ih =>
    -- the next block, if there is one, in a heap with the same used blocks
    have hnext {m' : Mem} {xs' ys' : List Block} {c' : Block} (hl' : Laid m' h (xs' ++ c' :: ys'))
        (hlen : ys'.length ≤ ys.length) : ∃ res,
        Heap.freedLoop h.heapEnd size fuel m' (ys'.head?.map Block.ptr) = .ok res ∧
          FreedResult m' h (xs' ++ c' :: ys') size res := by
      cases ys' with
      | nil =>
        exact ⟨_, freedLoop_none _ _, _, hl', fun b => Iff.rfl, fun _ _ _ _ _ => rfl,
          fun _ _ => rfl⟩
      | cons d ys' =>
        rw [List.length_cons] at hlen
        have hsplit : xs' ++ c' :: d :: ys' = (xs' ++ [c']) ++ d :: ys' := by simp
        rw [hsplit] at hl' ⊢
        exact ih hl' (by omega)
    by_cases hused : c.used = true
    · rw [freedLoop_used hl hfull hused]
      exact hnext hl le_rfl
    · rw [Bool.not_eq_true] at hused
      obtain ⟨r, rest, zs, m', hmerge, hlaid, hrest, hnone, hlen, hiff, hkeep, hout⟩ :=
        hl.mergeFree hfull hused hsize hlt
      rw [freedLoop_free hl hfull hused hmerge]
      by_cases hdone : size ≤ r
      · rw [decide_eq_true hdone, if_pos rfl]
        exact ⟨_, rfl, hl.freedResult_alloc hused hdone hlaid hrest hiff hkeep hout⟩
      · -- the whole run was merged, nothing is split off
        obtain rfl := hnone (by omega)
        rw [decide_eq_false hdone, if_neg Bool.false_ne_true]
        rw [List.append_assoc, List.singleton_append] at hlaid
        have hblock := hlaid.nextPtr hfull
        change BufferPtr.nextPtr ⟨c.ptr, min r size, h.heapEnd⟩ = _ at hblock
        rw [hblock]
        obtain ⟨res, heq, hres⟩ := hnext hlaid hlen
        refine ⟨res, heq, hres.of_same (fun b => ?_) hkeep hout⟩
        have hmid : ∀ d ∈ [(⟨c.ptr, min r size, false⟩ : Block)], d.used = false := by simp
        have hlist := used_middle (b := b) xs zs hmid
        rw [List.append_assoc, List.singleton_append] at hlist
        rw [hlist, hiff b]

/-- `malloc_from_freed` in a full heap. -/
theorem Laid.mallocFromFreed {bs : List Block} (hl : Laid m h bs) (hfull : h.offset = h.heapSize)
    (hsize : size % 8 = 4) (hlt : size < 2 ^ 31) :
    ∃ res, h.mallocFromFreed m size = .ok res ∧ FreedResult m h bs size res := by
  have hend := hl.end_lt
  have hpos := hl.heapSize_pos
  have hlen := hl.length_lt
  unfold Heap.mallocFromFreed
  rw [if_neg (not_not.mpr hfull)]
  cases bs with
  | nil =>
    have hempty : h.heap = h.heap + h.offset := hl.tiled
    omega
  | cons c ys =>
    rw [List.length_cons] at hlen
    have hptr : c.ptr = h.heap + 4 := hl.tiled.1
    have hfirst : wrap (h.heap + sizeMarker) = c.ptr := by
      unfold wrap sizeMarker
      omega
    rw [hfirst]
    rw [← List.nil_append (c :: ys)] at hl
    exact freedLoop_spec hl hfull hsize hlt (by omega)

end freedLoop

end UosioCdt.Malloc
