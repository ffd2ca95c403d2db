import UosioCdt.Malloc.Blocks

/-!
# What the operations of a heap do to its blocks

`Laid m h bs`: the heap is tiled by the blocks up to its offset, and holds zeros behind it. Every
operation changes the list of blocks in one place.
-/

namespace UosioCdt.Malloc

open Tiling

/-! ## The heap invariant -/

/-- The heap is tiled up to its offset by blocks whose sizes are 4 modulo 8; the rest is zero. -/
structure Laid (m : Mem) (h : Heap) (bs : List Block) : Prop where
  tiled : Tiled (tag m) 4 h.heap bs (h.heap + h.offset)
  sizes : ∀ b ∈ bs, b.size % 8 = 4
  offset_le : h.offset ≤ h.heapSize
  heapSize_mod : h.heapSize % 8 = 0
  heapSize_pos : 0 < h.heapSize
  heap_pos : 0 < h.heap
  end_lt : h.heap + h.heapSize + 4 < 2 ^ 32
  fresh : ∀ x, h.heap + h.offset ≤ x → x < h.heap + h.heapSize → m x = 0

/-- The block is a used one of the list. -/
def Used (bs : List Block) (b : Block) : Prop := b ∈ bs ∧ b.used = true

section laid

variable {m m' : Mem} {h : Heap} {bs xs ys mid mid' : List Block} {lo hi : ℕ}

lemma Laid.offset_mod (hl : Laid m h bs) : h.offset % 8 = 0 := by
  obtain ⟨n, hn⟩ := hl.tiled.dvd (k := 8) fun b hb => by
    have hsize := hl.sizes b hb
    omega
  omega

lemma Laid.heapEnd_eq (hl : Laid m h bs) : h.heapEnd = h.heap + h.heapSize := by
  have hend := hl.end_lt
  unfold Heap.heapEnd wrap
  omega

/-- Blocks in the middle are replaced. -/
lemma Laid.replace (hl : Laid m h bs) (hxs : Tiled (tag m) 4 h.heap xs lo)
    (hmid : Tiled (tag m') 4 lo mid' hi) (hys : Tiled (tag m) 4 hi ys (h.heap + h.offset))
    (hsizes : ∀ b ∈ xs ++ mid' ++ ys, b.size % 8 = 4)
    (hframe : ∀ x, x < lo ∨ hi ≤ x → m' x = m x) : Laid m' h (xs ++ mid' ++ ys) := by
  have hxs' : Tiled (tag m') 4 h.heap xs lo :=
    hxs.congr fun x _ hx => tag_congr fun y hy hyx => hframe y (.inl (by omega))
  have hys' : Tiled (tag m') 4 hi ys (h.heap + h.offset) :=
    hys.congr fun x hx _ => tag_congr fun y hy hyx => hframe y (.inr (by omega))
  have hle := hys.le
  refine { hl with tiled := ?_, sizes := hsizes, fresh := ?_ }
  · exact tiled_append.mpr ⟨hi, tiled_append.mpr ⟨lo, hxs', hmid⟩, hys'⟩
  · intro x hx hlt
    rw [hframe x (.inr (by omega))]
    exact hl.fresh x hx hlt

/-- Writes outside the heap leave its tiling alone. -/
lemma Laid.congr (hl : Laid m h bs)
    (hframe : ∀ x, h.heap ≤ x → x < h.heap + h.heapSize → m' x = m x) : Laid m' h bs := by
  have hle := hl.offset_le
  refine { hl with tiled := ?_, fresh := ?_ }
  · refine hl.tiled.congr fun x hx hxe => ?_
    exact tag_congr fun y hy hyx => hframe y (by omega) (by omega)
  · intro x hx hlt
    rw [hframe x (by omega) hlt]
    exact hl.fresh x hx hlt

/-- Writes inside the payload of a block leave the tiling alone. -/
lemma Laid.congr_payload (hl : Laid m h bs) {b : Block} (hb : b ∈ bs)
    (hframe : ∀ x, x < b.ptr ∨ b.stop ≤ x → m' x = m x) : Laid m' h bs := by
  obtain ⟨xs, ys, p, rfl, hptr, htag, hxs, hys⟩ := hl.tiled.split hb
  have htag' : tag m' p = tag m p := tag_congr fun x hx hlt => hframe x (.inl (by omega))
  have hmid : Tiled (tag m') 4 p [b] b.stop := ⟨hptr, htag'.trans htag, rfl⟩
  have hsizes : ∀ c ∈ xs ++ [b] ++ ys, c.size % 8 = 4 := by
    intro c hc
    rw [List.append_assoc, List.singleton_append] at hc
    exact hl.sizes c hc
  have hrep := hl.replace hxs hmid hys hsizes fun x hx => hframe x (by omega)
  rwa [List.append_assoc, List.singleton_append] at hrep

end laid

/-! ## `malloc`, `free`, `cleanup_remaining` -/

section operations

variable {m : Mem} {h : Heap} {bs : List Block} {size : ℕ}

/-- A tag and its payload are put behind the offset. -/
lemma Laid.append {m' : Mem} {u : Bool} (hl : Laid m h bs) (hsize : size % 8 = 4)
    (hfit : h.offset + size + 4 ≤ h.heapSize)
    (htag : Retags m m' (h.heap + h.offset) u size) :
    Laid m' { h with offset := h.offset + size + 4 } (bs ++ [⟨h.heap + h.offset + 4, size, u⟩]) := by
  have hold : Tiled (tag m') 4 h.heap bs (h.heap + h.offset) :=
    hl.tiled.congr fun x _ hx => tag_congr fun y hy hyx => htag.outside y (.inl (by omega))
  refine { hl with tiled := ?_, sizes := ?_, offset_le := hfit, fresh := ?_ }
  · refine tiled_append.mpr ⟨h.heap + h.offset, hold, rfl, htag.tag_eq, ?_⟩
    show h.heap + h.offset + 4 + size = h.heap + (h.offset + size + 4)
    omega
  · intro b hb
    rcases List.mem_append.mp hb with hb | hb
    · exact hl.sizes b hb
    · rw [List.mem_singleton.mp hb]
      exact hsize
  · intro x hx hlt
    change h.heap + (h.offset + size + 4) ≤ x at hx
    rw [htag.outside x (.inr (by omega))]
    exact hl.fresh x (by omega) hlt

/-- The heap has no room. -/
lemma malloc_eq_none (hwrap : h.offset + size + 4 < 2 ^ 32) (hfull : h.heapSize < h.offset + size + 4) :
    h.malloc m size = none := by
  have hused : wrap (wrap (h.offset + size) + sizeMarker) = h.offset + size + 4 := by
    unfold wrap sizeMarker
    omega
  unfold Heap.malloc
  rw [hused, if_pos hfull]

/-- The block behind the offset is allocated. -/
lemma Laid.malloc (hl : Laid m h bs) (hsize : size % 8 = 4) (hlt : size < 2 ^ 31)
    (hfit : h.offset + size + 4 ≤ h.heapSize) :
    ∃ m', h.malloc m size
        = some (h.heap + h.offset + 4, { h with offset := h.offset + size + 4 }, m') ∧
      Laid m' { h with offset := h.offset + size + 4 }
        (bs ++ [⟨h.heap + h.offset + 4, size, true⟩]) ∧
      ∀ x, x < h.heap + h.offset ∨ h.heap + h.offset + 4 ≤ x → m' x = m x := by
  have hend := hl.end_lt
  have hused : wrap (wrap (h.offset + size) + sizeMarker) = h.offset + size + 4 := by
    unfold wrap sizeMarker
    omega
  have hptr : wrap (h.heap + wrap (h.offset + sizeMarker)) = h.heap + h.offset + 4 := by
    unfold wrap sizeMarker
    omega
  have hoffset : wrap (h.offset + wrap (size + sizeMarker)) = h.offset + size + 4 := by
    unfold wrap sizeMarker
    omega
  have htag := retags_alloc (m := m) (a := h.heap + h.offset) rfl (by omega) hlt
  refine ⟨_, ?_, hl.append hsize hfit htag, htag.outside⟩
  unfold Heap.malloc
  rw [hused, if_neg (by omega), hptr, hoffset]

/-- The state of a block changes. -/
lemma Laid.retag {m' : Mem} {u : Bool} {xs ys : List Block} {b : Block} {a : ℕ}
    (hl : Laid m h (xs ++ b :: ys)) (hptr : b.ptr = a + 4) (htag : Retags m m' a u b.size) :
    Laid m' h (xs ++ { b with used := u } :: ys) := by
  obtain ⟨p, hxs, hptr', -, hys⟩ := tiled_append.mp hl.tiled
  obtain rfl : p = a := by omega
  have hmid : Tiled (tag m') 4 p [{ b with used := u }] b.stop := ⟨hptr, htag.tag_eq, rfl⟩
  have hstop : b.ptr ≤ b.stop := Nat.le_add_right _ _
  have hsizes : ∀ c ∈ xs ++ [{ b with used := u }] ++ ys, c.size % 8 = 4 := by
    intro c hc
    simp only [List.append_assoc, List.singleton_append, List.mem_append, List.mem_cons] at hc
    rcases hc with hc | rfl | hc
    · exact hl.sizes c (List.mem_append_left _ hc)
    · exact hl.sizes b (List.mem_append_right _ List.mem_cons_self)
    · exact hl.sizes c (List.mem_append_right _ (List.mem_cons_of_mem _ hc))
  have hrep := hl.replace hxs hmid hys hsizes fun x hx => htag.outside x (by omega)
  rwa [List.append_assoc, List.singleton_append] at hrep

/-- The tag of a block. -/
lemma Laid.tag_block {xs ys : List Block} {b : Block} (hl : Laid m h (xs ++ b :: ys)) :
    ∃ a, b.ptr = a + 4 ∧ tag m a = (b.used, b.size) ∧ b.ptr + b.size ≤ h.heap + h.offset ∧
      h.heap ≤ a ∧ Tiled (tag m) 4 h.heap xs a ∧
      Tiled (tag m) 4 b.stop ys (h.heap + h.offset) := by
  obtain ⟨a, hxs, hptr, htag, hys⟩ := tiled_append.mp hl.tiled
  exact ⟨a, hptr, htag, hys.le, hxs.le, hxs, hys⟩

/-- The block of the pointer is marked as free. -/
lemma Laid.free {xs ys : List Block} {b : Block} (hl : Laid m h (xs ++ b :: ys)) :
    Laid (Heap.free m b.ptr) h (xs ++ { b with used := false } :: ys) ∧
      ∀ x, x < b.ptr - 4 ∨ b.ptr ≤ x → Heap.free m b.ptr x = m x := by
  obtain ⟨a, hptr, htag, hin, -, -, -⟩ := hl.tag_block
  have hend := hl.end_lt
  have hoff := hl.offset_le
  have hfree := retags_markFree (m := m) hptr (by omega)
  rw [htag] at hfree
  exact ⟨hl.retag hptr hfree, fun x hx => hfree.outside x (by omega)⟩

/-- The rest of the heap becomes a freed block. -/
lemma Laid.cleanupRemaining (hl : Laid m h bs) (hrest : h.heapSize - h.offset < 2 ^ 31) :
    ∃ bs' m', h.cleanupRemaining m = ({ h with offset := h.heapSize }, m') ∧
      Laid m' { h with offset := h.heapSize } bs' ∧ (∀ b, Used bs' b ↔ Used bs b) ∧
      ∀ x, x < h.heap + h.offset ∨ h.heap + h.heapSize ≤ x → m' x = m x := by
  have hoff := hl.offset_mod
  have hmod := hl.heapSize_mod
  have hle := hl.offset_le
  have hend := hl.end_lt
  unfold Heap.cleanupRemaining
  by_cases hfull : h.offset = h.heapSize
  · have hsame : ({ h with offset := h.heapSize } : Heap) = h := by
      cases h
      cases hfull
      rfl
    rw [if_pos hfull, hsame]
    exact ⟨bs, m, rfl, hl, fun b => Iff.rfl, fun x _ => rfl⟩
  · have hsize : diff (diff h.heapSize h.offset) sizeMarker = h.heapSize - h.offset - 4 := by
      unfold diff sizeMarker
      omega
    have hptr : wrap (h.heap + wrap (h.offset + sizeMarker)) = h.heap + h.offset + 4 := by
      unfold wrap sizeMarker
      omega
    have htag := retags_free (m := m) (n := h.heapSize - h.offset - 4) (a := h.heap + h.offset) rfl
      (by omega) (by omega)
    have hlaid := hl.append (by omega) (by omega) htag
    rw [show h.offset + (h.heapSize - h.offset - 4) + 4 = h.heapSize by omega] at hlaid
    rw [if_neg hfull]
    simp only [hsize, hptr]
    refine ⟨_, _, rfl, hlaid, fun b => ?_, fun x hx => htag.outside x (by omega)⟩
    simp only [Used, List.mem_append, List.mem_singleton]
    constructor
    · rintro ⟨hb | rfl, hused⟩
      · exact ⟨hb, hused⟩
      · cases hused
    · rintro ⟨hb, hused⟩
      exact ⟨.inl hb, hused⟩

/-- More memory behind the heap. -/
lemma Laid.expandMemory (hl : Laid m h bs) (hmod : size % 8 = 0)
    (hend : h.heap + h.heapSize + size + 4 < 2 ^ 32)
    (hfresh : ∀ x, h.heap + h.heapSize ≤ x → x < h.heap + h.heapSize + size → m x = 0) :
    h.expandMemory (h.heap + h.heapSize) size = some { h with heapSize := h.heapSize + size } ∧
      Laid m { h with heapSize := h.heapSize + size } bs := by
  have hsize : wrap (h.heapSize + size) = h.heapSize + size := by
    unfold wrap
    omega
  constructor
  · unfold Heap.expandMemory
    rw [hl.heapEnd_eq, if_neg (not_not.mpr rfl), hsize]
  · have hle := hl.offset_le
    have hpos := hl.heapSize_pos
    have hmod' := hl.heapSize_mod
    refine { hl with offset_le := ?_, heapSize_mod := ?_, heapSize_pos := ?_, end_lt := ?_,
                     fresh := ?_ }
    · show h.offset ≤ h.heapSize + size
      omega
    · show (h.heapSize + size) % 8 = 0
      omega
    · show 0 < h.heapSize + size
      omega
    · show h.heap + (h.heapSize + size) + 4 < 2 ^ 32
      omega
    · intro x hx hlt
      change x < h.heap + (h.heapSize + size) at hlt
      by_cases hin : x < h.heap + h.heapSize
      · exact hl.fresh x hx hin
      · exact hfresh x (by omega) (by omega)

/-- A new heap has no blocks. -/
lemma laid_init (start size : ℕ) (hstart : 0 < start) (hmod : size % 8 = 0) (hpos : 0 < size)
    (hend : start + size + 4 < 2 ^ 32) (hfresh : ∀ x, start ≤ x → x < start + size → m x = 0) :
    Laid m (Heap.empty.init start size) [] where
  tiled := rfl
  sizes := fun _ hb => absurd hb List.not_mem_nil
  offset_le := Nat.zero_le _
  heapSize_mod := hmod
  heapSize_pos := hpos
  heap_pos := hstart
  end_lt := hend
  fresh := hfresh

end operations

end UosioCdt.Malloc
