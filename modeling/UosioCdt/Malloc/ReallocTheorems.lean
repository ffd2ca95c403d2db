import UosioCdt.Malloc.MallocTheorems

/-!
# `realloc`

A live block is resized in its heap, or moved into a new one. The size is compared with the end of
the heap, and free blocks are followed up to there, although only the part below the offset is laid
out: a request that reaches beyond it overruns.
-/

namespace UosioCdt.Malloc

open Tiling

/-! ## Requests -/

/-- The size in the size word of a block. -/
def recordedSize (m : Mem) (h : Heap) (p : ℕ) : ℕ := (bufferAt m p h.heapEnd).size

/-- Where the free blocks behind a block end. -/
def roomEnd (m : Mem) (h : Heap) (p : ℕ) : ℕ :=
  freeRun m loopBound (p + recordedSize m h p) (h.heap + h.offset)

/-- There is room for the size at the block. -/
def FitsInPlace (m : Mem) (h : Heap) (p size : ℕ) : Prop :=
  size ≤ recordedSize m h p ∨ p + size ≤ roomEnd m h p ∨
    (p + recordedSize m h p = h.heap + h.offset ∧ p + size ≤ h.heapEnd)

/-- The block is resized over bytes that are not laid out: the last block, by more than the heap's
end address, so that the difference wraps, or one behind which all blocks are free, so that the zeros
behind the offset are taken for free blocks. -/
def Overruns (m : Mem) (h : Heap) (p size : ℕ) : Prop :=
  (p + recordedSize m h p = h.heap + h.offset ∧ h.heapEnd < size) ∨
    (recordedSize m h p < size ∧ p + recordedSize m h p ≠ h.heap + h.offset ∧
      roomEnd m h p = h.heap + h.offset ∧ h.heap + h.offset < p + size ∧ p + size ≤ h.heapEnd)

/-! ## Runs of free blocks -/

section freeRun

variable {m : Mem} {a e fuel : ℕ} {ys : List Block}

lemma freeRun_le (ht : Tiled (tag m) 4 a ys e) : freeRun m fuel a e ≤ e := by
  induction fuel generalizing a ys with
  | zero => exact ht.le
  | succ fuel ih =>
    unfold freeRun
    split
    · rename_i hfree
      cases ys with
      | nil => exact absurd hfree.1 (by rw [show a = e from ht]; exact lt_irrefl e)
      | cons c ys =>
        obtain ⟨hptr, htag, hys⟩ := ht
        unfold Block.stop at hys
        rw [hptr] at hys
        rw [htag]
        exact ih hys
    · exact ht.le

/-- The run passes all blocks when they are free. -/
lemma freeRun_eq_of_free (ht : Tiled (tag m) 4 a ys e) (hfuel : ys.length < fuel)
    (hfree : ∀ c ∈ ys, c.used = false) : freeRun m fuel a e = e := by
  induction ys generalizing a fuel with
  | nil =>
    have hat : a = e := ht
    cases fuel with
    | zero => exact hat
    | succ fuel => rw [freeRun, if_neg (by omega), hat]
  | cons c ys ih =>
    obtain ⟨fuel, rfl⟩ : ∃ k, fuel = k + 1 := ⟨fuel - 1, by omega⟩
    rw [List.length_cons] at hfuel
    obtain ⟨hptr, htag, hys⟩ := ht
    have hle := hys.le
    unfold Block.stop at hys hle
    rw [freeRun, htag, if_pos ⟨by omega, hfree c List.mem_cons_self⟩]
    rw [hptr] at hys
    exact ih hys (by omega) fun d hd => hfree d (List.mem_cons_of_mem _ hd)

end freeRun

/-! ## A block in its heap -/

/-- The block `c` has been resized: the block `d` at its place has the size, and the heap has kept
everything else. -/
structure Resized (m : Mem) (h : Heap) (bs : List Block) (c : Block) (size : ℕ) (h' : Heap)
    (m' : Mem) (bs' : List Block) (d : Block) : Prop where
  laid : Laid m' h' bs'
  heap : h'.heap = h.heap
  heapSize : h'.heapSize = h.heapSize
  full : h.offset = h.heapSize → h'.offset = h.offset
  ptr : d.ptr = c.ptr
  size_le : size ≤ d.size
  used : ∀ b, Used bs' b ↔ (Used bs b ∧ b ≠ c) ∨ b = d
  keeps : ∀ b, Used bs b → b ≠ c → ∀ x, b.ptr ≤ x → x < b.stop → m' x = m x
  content : ∀ x, c.ptr ≤ x → x < c.ptr + min c.size size → m' x = m x
  outside : ∀ x, x < h.heap ∨ h.heap + h.heapSize ≤ x → m' x = m x

section inPlace

variable {m : Mem} {h : Heap} {xs ys : List Block} {c : Block} {size : ℕ}

lemma Laid.recordedSize (hl : Laid m h (xs ++ c :: ys)) : recordedSize m h c.ptr = c.size := by
  obtain ⟨a, hptr, htag, hin, -, -, -⟩ := hl.tag_block
  have hend := hl.end_lt
  have hoff := hl.offset_le
  unfold Malloc.recordedSize
  rw [bufferAt_eq hptr (by omega), htag]

lemma Laid.size_lt (hl : Laid m h (xs ++ c :: ys)) : c.size < 2 ^ 31 := by
  obtain ⟨a, -, htag, -, -, -, -⟩ := hl.tag_block
  have hlt := tag_snd_lt m a
  rwa [htag] at hlt

/-- The branches of `realloc_in_place` for a block of the heap. -/
lemma Laid.reallocInPlace_eq (hl : Laid m h (xs ++ c :: ys)) : h.reallocInPlace m c.ptr size =
    if c.ptr > diff h.heapEnd size then .ok ⟨none, c.size, h, m⟩
    else if c.size > size then
      .ok ⟨some c.ptr, c.size, h, markFree (writeSize m (wrap (wrap (c.ptr + size) + sizeMarker))
        (diff c.size size)) (wrap (wrap (c.ptr + size) + sizeMarker))⟩
    else if c.stop = h.heap + h.offset then
      .ok ⟨some c.ptr, c.size, { h with offset := wrap (h.offset + diff size c.size) },
        writeSize m c.ptr size⟩
    else if size = c.size then .ok ⟨some c.ptr, c.size, h, m⟩
    else do
      let (merged, _, m) ← mergeContiguous m ⟨c.ptr, c.size, h.heapEnd⟩ size true
      if merged then return ⟨some c.ptr, c.size, h, markAlloc m c.ptr⟩
      else return ⟨none, c.size, h, m⟩ := by
  obtain ⟨a, hptr, htag, hin, -, -, -⟩ := hl.tag_block
  have hend := hl.end_lt
  have hoff := hl.offset_le
  have hstop : BufferPtr.stop ⟨c.ptr, c.size, h.heapEnd⟩ = c.stop := by
    unfold BufferPtr.stop Block.stop wrap
    simp only
    omega
  have hlast : wrap (h.heap + h.offset) = h.heap + h.offset := by
    unfold wrap
    omega
  have hinside : ¬ c.stop > h.heapEnd := by
    rw [hl.heapEnd_eq]
    unfold Block.stop
    omega
  unfold Heap.reallocInPlace
  simp only [bufferAt_eq hptr (show c.ptr < 2 ^ 32 by omega), htag, hstop, hlast, if_neg hinside]
  rfl

/-- A block that keeps its place in the list. -/
lemma used_same {bs : List Block} {b : Block} (hc : Used bs c) :
    Used bs b ↔ (Used bs b ∧ b ≠ c) ∨ b = c := by
  constructor
  · intro hb
    by_cases hbc : b = c
    · exact .inr hbc
    · exact .inl ⟨hb, hbc⟩
  · rintro (⟨hb, -⟩ | rfl)
    · exact hb
    · exact hc

/-- The used blocks around a used block with free ones behind it. -/
lemma used_around {fs zs : List Block} {b : Block} (hused : c.used = true)
    (hfs : ∀ e ∈ fs, e.used = false) :
    Used (xs ++ c :: (fs ++ zs)) b ↔ (Used xs b ∨ Used zs b) ∨ b = c := by
  have haround := used_insert (b := b) xs zs hused hfs
  rwa [List.append_assoc, List.cons_append] at haround

/-- The block and the free ones behind it give way to a used one and free ones. -/
lemma used_resized {fs zs rest : List Block} {b d : Block}
    (hl : Laid m h (xs ++ c :: (fs ++ zs))) (hused : c.used = true) (hfs : ∀ e ∈ fs, e.used = false)
    (hd : d.used = true) (hrest : ∀ e ∈ rest, e.used = false) :
    Used (xs ++ (d :: rest) ++ zs) b ↔ (Used (xs ++ c :: (fs ++ zs)) b ∧ b ≠ c) ∨ b = d := by
  have hother : Used xs b ∨ Used zs b → b ≠ c := fun hb => ne_of_beside hl.tiled
    (hb.imp And.left fun hz => List.mem_append_right fs hz.1)
  rw [used_insert xs zs hd hrest, used_around hused hfs]
  constructor
  · rintro (hb | hb)
    · exact .inl ⟨.inl hb, hother hb⟩
    · exact .inr hb
  · rintro (⟨hb | hb, hne⟩ | hb)
    · exact .inl hb
    · exact absurd hb hne
    · exact .inr hb

/-- A used block apart from `c` lies in front of its tag or behind its payload. -/
lemma Laid.beside {b : Block} {x : ℕ} (hl : Laid m h (xs ++ c :: ys)) (hb : b ∈ xs ++ c :: ys)
    (hne : b ≠ c) (hx : b.ptr ≤ x) (hlt : x < b.stop) : x + 4 < c.ptr ∨ c.stop ≤ x := by
  have hapart := hl.tiled.apart hb (List.mem_append_right xs List.mem_cons_self) hne
  unfold Block.stop at *
  omega

/-- The block has the size already. -/
lemma Laid.keep (hl : Laid m h (xs ++ c :: ys)) (hused : c.used = true) (hle : size ≤ c.size) :
    Resized m h (xs ++ c :: ys) c size h m (xs ++ c :: ys) c where
  laid := hl
  heap := rfl
  heapSize := rfl
  full _ := rfl
  ptr := rfl
  size_le := hle
  used _ := used_same ⟨List.mem_append_right xs List.mem_cons_self, hused⟩
  keeps _ _ _ _ _ _ := rfl
  content _ _ _ := rfl
  outside _ _ := rfl

/-- The block gets smaller: a size word is written into its payload, and its own stays. -/
lemma Laid.shrink (hl : Laid m h (xs ++ c :: ys)) (hused : c.used = true) (hsize : size % 8 = 4)
    (hlt : size < c.size) : Resized m h (xs ++ c :: ys) c size h
      (markFree (writeSize m (wrap (wrap (c.ptr + size) + sizeMarker)) (diff c.size size))
        (wrap (wrap (c.ptr + size) + sizeMarker))) (xs ++ c :: ys) c := by
  have hc : c ∈ xs ++ c :: ys := List.mem_append_right xs List.mem_cons_self
  have hin := hl.block_in hc
  have hmod := hl.sizes c hc
  have hend := hl.end_lt
  have hclt := hl.size_lt
  have hptr : wrap (wrap (c.ptr + size) + sizeMarker) = c.ptr + size + 4 := by
    unfold wrap sizeMarker
    unfold Block.stop at hin
    omega
  have hrest : diff c.size size = c.size - size := by
    unfold diff
    omega
  rw [hptr, hrest]
  have htag := retags_free (m := m) (n := c.size - size) (a := c.ptr + size) rfl
    (by unfold Block.stop at hin; omega) (by omega)
  generalize markFree (writeSize m (c.ptr + size + 4) (c.size - size)) (c.ptr + size + 4) = m' at *
  have hframe : ∀ x, x < c.ptr + size ∨ c.stop ≤ x → m' x = m x := by
    intro x hx
    refine htag.outside x ?_
    unfold Block.stop at hx
    omega
  unfold Block.stop at hin
  constructor
  case laid => exact hl.congr_payload hc fun x hx => hframe x (by omega)
  case heap => rfl
  case heapSize => rfl
  case full => exact fun _ => rfl
  case ptr => rfl
  case size_le => exact hlt.le
  case used => exact fun b => used_same ⟨hc, hused⟩
  case keeps =>
    intro b hb hne x hx hlt
    have hbeside := hl.beside hb.1 hne hx hlt
    exact hframe x (by omega)
  case content => exact fun x hx hlt => hframe x (by omega)
  case outside =>
    intro x hx
    refine hframe x ?_
    unfold Block.stop
    omega

/-- No block is behind the one that ends at the offset. -/
lemma Laid.last (hl : Laid m h (xs ++ c :: ys)) (hlast : c.stop = h.heap + h.offset) : ys = [] := by
  obtain ⟨a, -, -, -, -, -, hys⟩ := hl.tag_block
  cases ys with
  | nil => rfl
  | cons d ys =>
    have hbd := hys.bounds List.mem_cons_self
    have hstop : d.ptr ≤ d.stop := Nat.le_add_right _ _
    omega

/-- The heap with a larger last block is tiled up to the new offset. -/
lemma Laid.extended {a : ℕ} {b : Bool} {m' : Mem} (hl : Laid m h (xs ++ [c]))
    (hxs : Tiled (tag m) 4 h.heap xs a) (hptr : c.ptr = a + 4) (hlast : c.stop = h.heap + h.offset)
    (hsize : size % 8 = 4) (hle : c.size ≤ size) (hfit : c.ptr + size ≤ h.heap + h.heapSize)
    (htag : Retags m m' a b size) :
    Laid m' { h with offset := h.offset + (size - c.size) } (xs ++ [⟨c.ptr, size, b⟩]) := by
  have hin := hl.block_in (List.mem_append_right xs List.mem_cons_self)
  unfold Block.stop at hlast
  have hxs' : Tiled (tag m') 4 h.heap xs a :=
    hxs.congr fun x _ hx => tag_congr fun y hy hyx => htag.outside y (.inl (by omega))
  constructor
  case tiled =>
    refine tiled_append.mpr ⟨a, hxs', hptr, htag.tag_eq, ?_⟩
    show c.ptr + size = h.heap + (h.offset + (size - c.size))
    omega
  case sizes =>
    intro d hd
    rcases List.mem_append.mp hd with hd | hd
    · exact hl.sizes d (List.mem_append_left _ hd)
    · rw [List.mem_singleton.mp hd]
      exact hsize
  case offset_le =>
    show h.offset + (size - c.size) ≤ h.heapSize
    omega
  case heapSize_mod => exact hl.heapSize_mod
  case heapSize_pos => exact hl.heapSize_pos
  case heap_pos => exact hl.heap_pos
  case end_lt => exact hl.end_lt
  case fresh =>
    intro x hx hlt
    change h.heap + (h.offset + (size - c.size)) ≤ x at hx
    rw [htag.outside x (by omega)]
    exact hl.fresh x (by omega) hlt

/-- The last block gets larger, and the offset moves with it. -/
lemma Laid.extend (hl : Laid m h (xs ++ c :: ys)) (hused : c.used = true) (hsize : size % 8 = 4)
    (hlast : c.stop = h.heap + h.offset) (hle : c.size ≤ size) (hlt : size < 2 ^ 31)
    (hfit : c.ptr + size ≤ h.heap + h.heapSize) :
    ∃ bs' d, Resized m h (xs ++ c :: ys) c size
      { h with offset := wrap (h.offset + diff size c.size) } (writeSize m c.ptr size) bs' d := by
  obtain ⟨a, hptr, htag, hin, ha, hxs, hys⟩ := hl.tag_block
  have hend := hl.end_lt
  have hoff := hl.offset_le
  obtain rfl := hl.last hlast
  have hoffset : wrap (h.offset + diff size c.size) = h.offset + (size - c.size) := by
    unfold Block.stop at hlast
    unfold wrap diff
    omega
  have hsized := retags_writeSize (m := m) hptr (by omega) hlt
  rw [htag, hused] at hsized
  rw [hoffset]
  generalize writeSize m c.ptr size = m' at *
  refine ⟨xs ++ ([⟨c.ptr, size, true⟩] : List Block) ++ [], ⟨c.ptr, size, true⟩, ?_⟩
  constructor
  case laid =>
    rw [List.append_nil]
    exact hl.extended hxs hptr hlast hsize hle hfit hsized
  case heap => rfl
  case heapSize => rfl
  case full =>
    -- a full heap has no room behind its last block
    intro hfull
    unfold Block.stop at hlast
    show h.offset + (size - c.size) = h.offset
    omega
  case ptr => rfl
  case size_le => exact le_rfl
  case used =>
    intro b
    have hnone : ∀ e ∈ ([] : List Block), e.used = false := fun e he => absurd he List.not_mem_nil
    exact used_resized hl hused hnone rfl hnone
  case keeps =>
    intro b hb hne x hx hlt
    have hbeside := hl.beside hb.1 hne hx hlt
    unfold Block.stop at hbeside hlast
    exact hsized.outside x (by omega)
  case content => exact fun x hx _ => hsized.outside x (by omega)
  case outside => exact fun x hx => hsized.outside x (by omega)

/-- All or nothing: the block is combined when the run behind it is long enough. -/
lemma mergeContiguous_all {b : BufferPtr} {r : ℕ} (hspace : ¬ diff b.heapEnd b.ptr < size)
    (hloop : mergeLoop m b size loopBound b.size = .ok r) :
    mergeContiguous m b size true =
      if r < size then .ok (false, b, m) else .ok (combine m b r size) := by
  unfold mergeContiguous
  simp only [true_and, if_neg hspace]
  rw [hloop]
  show (if r < size then _ else _) = _
  split <;> rfl

/-- Without an overrun the run behind the block ends where the blocks do, or in front of there. -/
lemma Laid.run_stops (hl : Laid m h (xs ++ c :: ys)) (hgrow : c.size < size)
    (hfit : c.ptr + size ≤ h.heapEnd) (hlast : c.stop ≠ h.heap + h.offset)
    (hover : ¬ Overruns m h c.ptr size) :
    h.heap + h.offset = h.heapEnd ∨ c.ptr + size ≤ h.heap + h.offset ∨ ∃ d ∈ ys, d.used = true := by
  obtain ⟨-, -, -, -, -, -, hys⟩ := hl.tag_block
  have hrecorded := hl.recordedSize
  have hlen := hl.length_lt
  rw [List.length_append, List.length_cons] at hlen
  have hfuel : ys.length < loopBound := by omega
  by_contra hnot
  simp only [not_or, not_exists, not_and, Bool.not_eq_true] at hnot
  -- all blocks behind are free, and the request reaches beyond them
  have hroom : roomEnd m h c.ptr = h.heap + h.offset := by
    unfold roomEnd
    rw [hrecorded]
    exact freeRun_eq_of_free hys hfuel hnot.2.2
  refine hover (.inr ⟨?_, ?_, hroom, not_le.mp hnot.2.1, hfit⟩)
  · rwa [hrecorded]
  · rwa [hrecorded]

/-- The combined block is marked as allocated, as it was before. -/
lemma Laid.resized_combined {a r : ℕ} {fs zs rest : List Block} {m' : Mem}
    (hl : Laid m h (xs ++ c :: (fs ++ zs))) (hused : c.used = true)
    (hfs : ∀ d ∈ fs, d.used = false) (hrest : ∀ d ∈ rest, d.used = false)
    (hxs : Tiled (tag m) 4 h.heap xs a) (hptr : c.ptr = a + 4)
    (hrun : Tiled (tag m) 4 c.stop fs (c.ptr + r))
    (hzs : Tiled (tag m) 4 (c.ptr + r) zs (h.heap + h.offset))
    (hlaid : Laid m' h (xs ++ ⟨c.ptr, size, true⟩ :: (rest ++ zs)))
    (hframe : ∀ x, x < a ∨ (c.ptr ≤ x ∧ x < c.ptr + size) ∨ c.ptr + r ≤ x → m' x = m x) :
    Resized m h (xs ++ c :: (fs ++ zs)) c size h (markAlloc m' c.ptr)
      (xs ++ (⟨c.ptr, size, true⟩ :: rest) ++ zs) ⟨c.ptr, size, true⟩ := by
  have hend := hl.end_lt
  have hoff := hl.offset_le
  have hle := hzs.le
  have hstart := hxs.le
  have hstop := hrun.le
  obtain ⟨a', hptr', htag', -, -, -, -⟩ := hlaid.tag_block
  change c.ptr = a' + 4 at hptr'
  obtain rfl : a = a' := by omega
  have hmark := retags_markAlloc (m := m') hptr (by omega)
  rw [htag'] at hmark
  have hlaid' : Laid (markAlloc m' c.ptr) h (xs ++ ⟨c.ptr, size, true⟩ :: (rest ++ zs)) :=
    hlaid.retag hptr hmark
  generalize markAlloc m' c.ptr = m'' at hmark hlaid' ⊢
  have hframe' : ∀ x, x < a ∨ (c.ptr ≤ x ∧ x < c.ptr + size) ∨ c.ptr + r ≤ x → m'' x = m x := by
    intro x hx
    have hpayload : c.stop = c.ptr + c.size := rfl
    rw [hmark.outside x (by omega), hframe x hx]
  constructor
  case laid =>
    rw [List.append_assoc, List.cons_append]
    exact hlaid'
  case heap => rfl
  case heapSize => rfl
  case full => exact fun _ => rfl
  case ptr => rfl
  case size_le => exact le_rfl
  case used => exact fun b => used_resized hl hused hfs rfl hrest
  case keeps =>
    intro b hb hne x hx hlt
    rcases ((used_around hused hfs).mp hb).resolve_right hne with hb | hb
    · have hbd := hxs.bounds hb.1
      exact hframe' x (by omega)
    · have hbd := hzs.bounds hb.1
      exact hframe' x (by omega)
  case content => exact fun x hx hlt => hframe' x (by omega)
  case outside =>
    intro x hx
    have hpayload : c.stop = c.ptr + c.size := rfl
    exact hframe' x (by omega)

/-- Without an overrun the free blocks behind the block are all that is merged. -/
lemma Laid.mergeUsed (hl : Laid m h (xs ++ c :: ys)) (hused : c.used = true)
    (hsize : size % 8 = 4) (hlt : size < 2 ^ 31) (hgrow : c.size < size)
    (hfit : c.ptr + size ≤ h.heapEnd) (hlast : c.stop ≠ h.heap + h.offset)
    (hover : ¬ Overruns m h c.ptr size) :
    ∃ merged b m', mergeContiguous m ⟨c.ptr, c.size, h.heapEnd⟩ size true = .ok (merged, b, m') ∧
      (merged = false ∧ m' = m ∧ ¬ FitsInPlace m h c.ptr size ∨
        merged = true ∧ ∃ bs' d,
          Resized m h (xs ++ c :: ys) c size h (markAlloc m' c.ptr) bs' d) := by
  obtain ⟨a, hptr, htag, hin, ha, hxs, hys⟩ := hl.tag_block
  have hrecorded := hl.recordedSize
  have hend := hl.end_lt
  have hoff := hl.offset_le
  have hE := hl.heapEnd_eq
  have hlen := hl.length_lt
  rw [List.length_append, List.length_cons] at hlen
  have hfuel : ys.length < loopBound := by omega
  have hinside : h.heap + h.offset ≤ h.heapEnd := by omega
  have hend32 : h.heapEnd < 2 ^ 32 := by omega
  have hspace : ¬ diff h.heapEnd c.ptr < size := by
    unfold diff
    omega
  have hstops := hl.run_stops hgrow hfit hlast hover
  obtain ⟨r, fs, zs, hloop, rfl, hfs, hfst, hzst, hr, hiff⟩ :=
    mergeLoop_spec ⟨c.ptr, c.size, h.heapEnd⟩ size hys hinside hend32 hfuel hstops (by omega)
  change Tiled (tag m) 4 c.stop fs (c.ptr + r) at hfst
  change Tiled (tag m) 4 (c.ptr + r) zs (h.heap + h.offset) at hzst
  rw [mergeContiguous_all hspace hloop]
  by_cases hshort : r < size
  · -- a used block or the end of the blocks comes too early
    rw [if_pos hshort]
    refine ⟨_, _, _, rfl, .inl ⟨rfl, rfl, ?_⟩⟩
    unfold FitsInPlace roomEnd
    rw [hrecorded]
    unfold Block.stop at hlast
    change size ≤ r ↔ c.ptr + size ≤ freeRun m loopBound (c.ptr + c.size) (h.heap + h.offset) at hiff
    omega
  · rw [if_neg hshort]
    obtain ⟨rest, m', hcomb, hrest, -, hlaid, hframe⟩ :=
      hl.combine hxs hptr (by rw [htag]) hfst hzst hsize hlt hr c.size h.heapEnd
    have hmin : min r size = size := by omega
    rw [hmin, hused, List.append_assoc, List.cons_append] at hlaid
    rw [hcomb]
    exact ⟨_, _, _, rfl, .inr ⟨decide_eq_true (by omega), _, _,
      hl.resized_combined hused hfs hrest hxs hptr hfst hzst hlaid hframe⟩⟩

/-- What `realloc_in_place` does to a block that is not overrun: nothing where there is no room, or
the block is resized. -/
theorem Laid.reallocInPlace (hl : Laid m h (xs ++ c :: ys)) (hused : c.used = true)
    (hsize : size % 8 = 4) (hlt : size < 2 ^ 31) (hover : ¬ Overruns m h c.ptr size) :
    ∃ r, h.reallocInPlace m c.ptr size = .ok r ∧ r.origPtrSize = c.size ∧
      (r.ptr = none ∧ r.heap = h ∧ r.mem = m ∧ ¬ FitsInPlace m h c.ptr size ∨
        r.ptr = some c.ptr ∧ ∃ bs' d, Resized m h (xs ++ c :: ys) c size r.heap r.mem bs' d) := by
  obtain ⟨a, hptr, htag, hin, ha, hxs, hys⟩ := hl.tag_block
  have hrecorded := hl.recordedSize
  have hend := hl.end_lt
  have hoff := hl.offset_le
  have hE := hl.heapEnd_eq
  have hrun : roomEnd m h c.ptr ≤ h.heap + h.offset := by
    unfold roomEnd
    rw [hrecorded]
    exact freeRun_le hys
  -- nothing fits that passes the end of the heap
  have hnofit : h.heapEnd < c.ptr + size → ¬ FitsInPlace m h c.ptr size := by
    intro hpast
    unfold FitsInPlace
    rw [hrecorded]
    omega
  rw [hl.reallocInPlace_eq]
  by_cases hbehind : c.ptr > diff h.heapEnd size
  · -- the size reaches beyond the heap
    rw [if_pos hbehind]
    refine ⟨_, rfl, rfl, .inl ⟨rfl, rfl, rfl, hnofit ?_⟩⟩
    unfold diff at hbehind
    omega
  · rw [if_neg hbehind]
    by_cases hshrink : c.size > size
    · -- the block shrinks
      rw [if_pos hshrink]
      have hresized := hl.shrink hused hsize hshrink
      generalize markFree (writeSize m (wrap (wrap (c.ptr + size) + sizeMarker)) (diff c.size size))
        (wrap (wrap (c.ptr + size) + sizeMarker)) = m' at hresized ⊢
      exact ⟨_, rfl, rfl, .inr ⟨rfl, _, _, hresized⟩⟩
    · rw [if_neg hshrink]
      by_cases hlast : c.stop = h.heap + h.offset
      · -- the last block is extended; the comparison above may have wrapped
        rw [if_pos hlast]
        have hsmall : ¬ h.heapEnd < size := by
          intro hlarge
          exact hover (.inl ⟨by rw [hrecorded]; exact hlast, hlarge⟩)
        have hfit : c.ptr + size ≤ h.heap + h.heapSize := by
          unfold diff at hbehind
          omega
        have hresized := hl.extend hused hsize hlast (by omega) hlt hfit
        generalize writeSize m c.ptr size = m' at hresized ⊢
        generalize wrap (h.offset + diff size c.size) = offset at hresized ⊢
        exact ⟨_, rfl, rfl, .inr ⟨rfl, hresized⟩⟩
      · rw [if_neg hlast]
        by_cases hsame : size = c.size
        · rw [if_pos hsame]
          exact ⟨_, rfl, rfl, .inr ⟨rfl, _, _, hl.keep hused hsame.le⟩⟩
        · rw [if_neg hsame]
          have hfit : c.ptr + size ≤ h.heapEnd ∨ h.heapEnd < size := by
            unfold diff at hbehind
            omega
          rcases hfit with hfit | hlarge
          · obtain ⟨merged, b, m', hmerge, hcase⟩ :=
              hl.mergeUsed hused hsize hlt (by omega) hfit hlast hover
            rw [hmerge]
            rcases hcase with ⟨rfl, rfl, hroom⟩ | ⟨rfl, hresized⟩
            · exact ⟨_, rfl, rfl, .inl ⟨rfl, rfl, rfl, hroom⟩⟩
            · generalize hmark : markAlloc m' c.ptr = m'' at hresized
              refine ⟨⟨some c.ptr, c.size, h, m''⟩, ?_, rfl, .inr ⟨rfl, hresized⟩⟩
              rw [← hmark]
              rfl
          · -- the difference has wrapped, but there are not enough bytes up to the end
            have hspace : diff h.heapEnd c.ptr < size := by
              unfold diff
              omega
            have hmerge : mergeContiguous m ⟨c.ptr, c.size, h.heapEnd⟩ size true
                = .ok (false, ⟨c.ptr, c.size, h.heapEnd⟩, m) := by
              unfold mergeContiguous
              rw [if_pos ⟨rfl, hspace⟩]
              rfl
            rw [hmerge]
            exact ⟨_, rfl, rfl, .inl ⟨rfl, rfl, rfl, hnofit (by omega)⟩⟩

end inPlace

/-! ## A block of the manager -/

/-- What `realloc` does to the used block `b`: it stays, or a block of the size takes its place and
has its bytes. -/
structure Reallocates (env : Env) (s : Manager) (n : ℕ) (bs : ℕ → List Block) (b : Block) (size : ℕ)
    (res : Option ℕ × Manager) (n' : ℕ) (bs' : ℕ → List Block) : Prop where
  ready : Ready env res.2 n' bs'
  phase : Phase res.2 n'
  stays : res.1 = none → ∀ c, UsedIn n' bs' c ↔ UsedIn n bs c
  moves : ∀ q, res.1 = some q → ∃ d : Block, d.ptr = q ∧ size ≤ d.size ∧
    (∀ c, UsedIn n bs c → c ≠ b → c.ptr ≠ q) ∧
    (∀ c, UsedIn n' bs' c ↔ (UsedIn n bs c ∧ c ≠ b) ∨ c = d) ∧
    ∀ x < min b.size size, res.2.mem (q + x) = s.mem (b.ptr + x)
  keeps : ∀ c, UsedIn n bs c → c ≠ b → ∀ x, c.ptr ≤ x → x < c.stop → res.2.mem x = s.mem x

/-- The block of the pointer is resized without an overrun, and what does not fit does not wrap the
sum of `malloc`. -/
def ReallocOk (s : Manager) (p k : ℕ) : Prop :=
  ∀ i, s.findHeap p = some i →
    ¬ Overruns s.mem (s.availableHeaps i) p (Manager.adjustToMemBlock k) ∧
      (FitsInPlace s.mem (s.availableHeaps i) p (Manager.adjustToMemBlock k) ∨ NoWrap s k)

section manager

variable {env : Env} {s : Manager} {n i : ℕ} {bs : ℕ → List Block} {b : Block} {size : ℕ}

/-- A heap changes without its size, and a full one stays full. -/
lemma Phase.resize {h' : Heap} {m' : Mem} (hphase : Phase s n)
    (hsize : h'.heapSize = (s.availableHeaps i).heapSize)
    (hfull : (s.availableHeaps i).offset = (s.availableHeaps i).heapSize →
      h'.offset = (s.availableHeaps i).offset) :
    Phase { s.setHeap i h' with mem := m' } n := by
  have hkeep (k : ℕ) (h : FullBut s n k) : FullBut { s.setHeap i h' with mem := m' } n k := by
    intro j hj hjk
    show (if j = i then h' else s.availableHeaps j).offset =
      (if j = i then h' else s.availableHeaps j).heapSize
    by_cases hji : j = i
    · have hold := h j hj hjk
      rw [hji] at hold
      rw [if_pos hji, hfull hold, hsize, hold]
    · rw [if_neg hji]
      exact h j hj hjk
  cases hphase with
  | fresh h₁ h₂ h₃ h₄ => exact .fresh h₁ h₂ h₃ h₄
  | active h₁ h₂ h₃ h₄ => exact .active h₁ h₂ h₃ (hkeep _ h₄)
  | exhausted h₁ h₂ h₃ h₄ => exact .exhausted h₁ h₂ h₃ (hkeep _ h₄)

/-- A block is resized in heap `i`. -/
lemma Ready.resized (henv : env.Ok) (hr : Ready env s n bs) (hphase : Phase s n) (hi : i < n)
    (hb : Used (bs i) b) {h' : Heap} {m' : Mem} {bs' : List Block} {d : Block}
    (h : Resized s.mem (s.availableHeaps i) (bs i) b size h' m' bs' d) :
    Reallocates env s n bs b size (some b.ptr, { s.setHeap i h' with mem := m' }) n
      (setBlocks bs i bs') := by
  -- no other heap has the block
  have hother : ∀ j < n, j ≠ i → ∀ c, Used (bs j) c → c ≠ b := by
    rintro j hj hji c hc rfl
    have hapart := hr.heaps_apart henv hi hj (Ne.symm hji)
    have hcin := (hr.laid j hj).block_in hc.1
    have hbin := (hr.laid i hi).block_in hb.1
    have hstop : c.ptr ≤ c.stop := Nat.le_add_right _ _
    omega
  constructor
  case ready =>
    refine hr.update henv hi h.laid h.heap h.heapSize fun x hx => h.outside x ?_
    rwa [h.heap, h.heapSize] at hx
  case phase => exact hphase.resize h.heapSize h.full
  case stays => exact fun hnone => absurd hnone (Option.some_ne_none _)
  case moves =>
    intro q hq
    cases hq
    refine ⟨d, h.ptr, h.size_le, fun c hc hne hptr => ?_, fun c => ?_,
      fun x hx => h.content _ (by omega) (by omega)⟩
    · exact hne (hr.eq_of_ptr_eq henv hc ⟨i, hi, hb⟩ hptr)
    · rw [usedIn_setBlocks hi, usedIn_iff hi, h.used c]
      constructor
      · rintro ((⟨hc, hne⟩ | hc) | ⟨j, hj, hji, hc⟩)
        · exact .inl ⟨.inl hc, hne⟩
        · exact .inr hc
        · exact .inl ⟨.inr ⟨j, hj, hji, hc⟩, hother j hj hji c hc⟩
      · rintro (⟨hc | hc, hne⟩ | hc)
        · exact .inl (.inl ⟨hc, hne⟩)
        · exact .inr hc
        · exact .inl (.inr hc)
  case keeps =>
    intro c hc hne x hx hlt
    rcases (usedIn_iff hi).mp hc with hc | ⟨j, hj, hji, hc⟩
    · exact h.keeps c hc hne x hx hlt
    · have hapart := hr.heaps_apart henv hi hj (Ne.symm hji)
      have hin := (hr.laid j hj).block_in hc.1
      exact h.outside x (by omega)

lemma Ready.size_pos (hr : Ready env s n bs) (hb : UsedIn n bs b) : 0 < b.size := by
  obtain ⟨i, hi, hmem, -⟩ := hb
  have hmod := (hr.laid i hi).sizes b hmem
  omega

lemma memcpy_inside {m : Mem} {dst src k x : ℕ} (hx : x < k) :
    memcpy m dst src k (dst + x) = m (src + x) := by
  unfold memcpy
  rw [if_pos ⟨Nat.le_add_right dst x, by omega⟩, Nat.add_sub_cancel_left]

lemma memcpy_outside {m : Mem} {dst src k x : ℕ} (hx : x < dst ∨ dst + k ≤ x) :
    memcpy m dst src k x = m x := by
  unfold memcpy
  rw [if_neg (by omega)]

/-- No new block: the manager gives up and leaves the old one alone. -/
lemma reallocCopy_none {s₁ : Manager} {p k : ℕ} (hmalloc : s.malloc env size = .ok (none, s₁)) :
    s.reallocCopy env p size k = .ok (none, s₁) := by
  unfold Manager.reallocCopy
  rw [hmalloc]
  rfl

/-- A new block: it gets the bytes that both have, and the old one is freed. -/
lemma reallocCopy_some {s₁ : Manager} {p k q : ℕ} (hmalloc : s.malloc env size = .ok (some q, s₁))
    (hpos : 0 < min k size) :
    s.reallocCopy env p size k = .ok (some q,
      { s₁ with mem := memcpy s₁.mem q p (min k size) }.free p) := by
  have hcopy : (if size < k then size else k) = min k size := by
    split <;> omega
  unfold Manager.reallocCopy
  rw [hmalloc]
  show (if (if size < k then size else k) > 0 then _ else _) = _
  rw [hcopy, if_pos hpos]
  rfl

/-- A new block gets the bytes of the old one, which is freed. -/
lemma Ready.reallocCopy (henv : env.Ok) (hr : Ready env s n bs) (hphase : Phase s n)
    (hb : UsedIn n bs b) (hsize : size % 8 = 4) (hle : size ≤ 2 ^ 30 + 4) (hwrap : NoWrap s size) :
    ∃ res n' bs', s.reallocCopy env b.ptr size b.size = .ok res ∧
      Reallocates env s n bs b size res n' bs' := by
  obtain ⟨⟨r, s₁⟩, n₁, bs₁, hmalloc, hr₁, hphase₁, hgives, hkeeps⟩ :=
    hr.malloc henv hphase (by omega) hle hwrap
  rw [adjustToMemBlock_self hsize] at hgives
  change KeepsIn s.mem s₁.mem n bs at hkeeps
  cases r with
  | none =>
    refine ⟨(none, s₁), n₁, bs₁, reallocCopy_none hmalloc, hr₁, hphase₁, fun _ => hgives, ?_,
      fun c hc _ => hkeeps c hc⟩
    intro q hq
    cases hq
  | some q =>
    obtain ⟨d, rfl, hd, hnew, hiff⟩ := hgives
    have hb₁ : UsedIn n₁ bs₁ b := (hiff b).mpr (.inl hb)
    have hd₁ : UsedIn n₁ bs₁ d := (hiff d).mpr (.inr rfl)
    have hne : b ≠ d := by
      rintro rfl
      exact hnew hb
    have hapart := hr₁.blocks_apart henv hb₁ hd₁ hne
    have hpos := hr.size_pos hb
    -- the copy writes into the new block only, and free changes one tag
    have hcopied : ∀ x, x < d.ptr ∨ d.stop ≤ x →
        memcpy s₁.mem d.ptr b.ptr (min b.size size) x = s₁.mem x := by
      intro x hx
      unfold Block.stop at hx
      exact memcpy_outside (by omega)
    have hr₂ := hr₁.congr_payload henv hd₁ hcopied
    have hphase₂ : Phase { s₁ with mem := memcpy s₁.mem d.ptr b.ptr (min b.size size) } n₁ :=
      hphase₁.congr rfl rfl rfl rfl
    obtain ⟨bs₂, hr₃, hphase₃, hiff₃, hframe₃⟩ := hr₂.free henv hphase₂ hb₁
    rw [reallocCopy_some hmalloc (by omega)]
    unfold Block.stop at hapart
    refine ⟨_, n₁, bs₂, rfl, hr₃, hphase₃, fun hnone => absurd hnone (Option.some_ne_none _), ?_, ?_⟩
    · intro q hq
      cases hq
      refine ⟨d, rfl, hd.ge, fun c hc _ hptr => ?_, fun c => ?_, fun x hx => ?_⟩
      · rw [hr₁.eq_of_ptr_eq henv ((hiff c).mpr (.inl hc)) hd₁ hptr] at hc
        exact hnew hc
      · rw [hiff₃ c, hiff c]
        constructor
        · rintro ⟨hc | hc, hcb⟩
          · exact .inl ⟨hc, hcb⟩
          · exact .inr hc
        · rintro (⟨hc, hcb⟩ | rfl)
          · exact ⟨.inl hc, hcb⟩
          · exact ⟨.inr rfl, hne.symm⟩
      · -- the copied bytes are those that the old block had before the call of malloc
        rw [hframe₃ _ (by omega)]
        show memcpy s₁.mem d.ptr b.ptr (min b.size size) (d.ptr + x) = _
        rw [memcpy_inside hx]
        refine hkeeps b hb _ (by omega) ?_
        unfold Block.stop
        omega
    · intro c hc hcb x hx hlt
      have hc₁ : UsedIn n₁ bs₁ c := (hiff c).mpr (.inl hc)
      have hcd : c ≠ d := by
        rintro rfl
        exact hnew hc
      -- the other blocks lie beside the new and the old one
      have hcapart := hr₁.blocks_apart henv hc₁ hd₁ hcd
      have hbapart := hr₁.blocks_apart henv hc₁ hb₁ hcb
      unfold Block.stop at hlt hcapart hbapart
      rw [hframe₃ x (by omega)]
      show memcpy s₁.mem d.ptr b.ptr (min b.size size) x = _
      rw [memcpy_outside (by omega)]
      exact hkeeps c hc x hx hlt

/-- `realloc` of a used block, when it is not overrun and the sum does not wrap. -/
theorem Ready.realloc (henv : env.Ok) (hr : Ready env s n bs) (hphase : Phase s n)
    (hb : UsedIn n bs b) {k : ℕ} (hpos : 0 < k) (hk : k ≤ 2 ^ 30) (hok : ReallocOk s b.ptr k) :
    ∃ res n' bs', s.realloc env b.ptr k = .ok res ∧
      Reallocates env s n bs b (Manager.adjustToMemBlock k) res n' bs' := by
  obtain ⟨hmod, hle, hlt⟩ := adjustToMemBlock_spec (k := k) (by omega)
  have hwraps : NoWrap s k → NoWrap s (Manager.adjustToMemBlock k) := by
    unfold NoWrap
    rw [adjustToMemBlock_self hmod]
    exact id
  have hbpos := hr.size_pos hb
  obtain ⟨i, hi, hmem, hused⟩ := id hb
  have hin := (hr.laid i hi).block_in hmem
  have hfind := hr.findHeap henv (hphase.le_actual hr.two) hi hmem hbpos
  obtain ⟨hover, hfits⟩ := hok i hfind
  generalize hadjust : Manager.adjustToMemBlock k = size at *
  obtain ⟨xs, ys, hsplit⟩ := List.append_of_mem hmem
  have hl := hr.laid i hi
  rw [hsplit] at hl
  obtain ⟨r, hinPlace, horig, hcase⟩ := hl.reallocInPlace hused hmod (by omega) hover
  rcases hcase with ⟨hnone, hheap, hsame, hroom⟩ | ⟨hsome, bs', d, hresized⟩
  · -- nothing fits in place, and the heap is as it was
    have hback : { s.setHeap i r.heap with mem := r.mem } = s := by
      rw [hheap, hsame, setHeap_self]
    have heq : s.realloc env b.ptr k = s.reallocCopy env b.ptr size b.size := by
      unfold Manager.realloc
      rw [if_neg (by omega), hadjust, if_pos (by omega), hfind, ← horig]
      simp only [hinPlace, bind, Except.bind, hnone, hback]
    rw [heq]
    exact hr.reallocCopy henv hphase hb hmod (by omega) (hwraps (hfits.resolve_left hroom))
  · -- resized in place
    have heq : s.realloc env b.ptr k =
        .ok (some b.ptr, { s.setHeap i r.heap with mem := r.mem }) := by
      unfold Manager.realloc
      rw [if_neg (by omega), hadjust, if_pos (by omega), hfind]
      simp only [hinPlace, bind, Except.bind, hsome]
      rfl
    rw [heq]
    rw [← hsplit] at hresized
    exact ⟨_, n, _, rfl, hr.resized henv hphase hi ⟨hmem, hused⟩ hresized⟩

end manager

end UosioCdt.Malloc
