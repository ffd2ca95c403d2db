import UosioCdt.Malloc.HeapTheorems
import Mathlib.Tactic.Tauto

/-!
# Merging of free blocks

`mergeLoop` follows the tags behind a block while they are free. Inside the tiled part of the heap it
takes over a run of free blocks; `malloc_from_freed` then splits off what it does not need.
-/

namespace UosioCdt.Malloc

open Tiling

/-- Where the run of free blocks from `a` ends, at `e` at the latest. -/
def freeRun (m : Mem) : ℕ → ℕ → ℕ → ℕ
  | 0, a, _ => a
  | fuel + 1, a, e =>
    if a < e ∧ (tag m a).1 = false then freeRun m fuel (a + 4 + (tag m a).2) e else a

lemma le_freeRun (m : Mem) (fuel a e : ℕ) : a ≤ freeRun m fuel a e := by
  induction fuel generalizing a with
  | zero => exact le_rfl
  | succ fuel ih =>
    unfold freeRun
    split
    · exact le_trans (by omega) (ih _)
    · exact le_rfl

section mergeLoop

variable {m : Mem} {b : BufferPtr} {needed possible e : ℕ}

/-- The word that the loop reads is the tag. -/
lemma mergeLoop_succ {a : ℕ} (fuel : ℕ) (ha : b.ptr + possible = a) (hlt : a < b.heapEnd)
    (hend : b.heapEnd < 2 ^ 32) (hneed : possible < needed) :
    mergeLoop m b needed (fuel + 1) possible =
      if (tag m a).1 then .ok possible
      else mergeLoop m b needed fuel (wrap (possible + wrap ((tag m a).2 + 4))) := by
  have hwrap : wrap (b.ptr + possible) = a := by
    unfold wrap
    omega
  rw [mergeLoop, hwrap, if_pos ⟨hneed, hlt⟩]
  by_cases halloc : load m a &&& allocMask = 0
  · simp [tag, halloc, sizeMarker]
  · simp [tag, halloc]

/-- The loop takes over a run of free blocks, if it cannot pass the end `e` of the tiling. -/
lemma mergeLoop_spec (b : BufferPtr) (needed : ℕ) {fuel : ℕ} {ys : List Block}
    (htiled : Tiled (tag m) 4 (b.ptr + possible) ys e) (he : e ≤ b.heapEnd)
    (hend : b.heapEnd < 2 ^ 32) (hfuel : ys.length < fuel)
    (hstop : e = b.heapEnd ∨ b.ptr + needed ≤ e ∨ ∃ c ∈ ys, c.used = true)
    (hbound : possible < needed + 2 ^ 31 + 4) :
    ∃ r fs zs, mergeLoop m b needed fuel possible = .ok r ∧ ys = fs ++ zs ∧
      (∀ c ∈ fs, c.used = false) ∧ Tiled (tag m) 4 (b.ptr + possible) fs (b.ptr + r) ∧
      Tiled (tag m) 4 (b.ptr + r) zs e ∧ r < needed + 2 ^ 31 + 4 ∧
      (needed ≤ r ↔ b.ptr + needed ≤ freeRun m fuel (b.ptr + possible) e) := by
  induction ys generalizing fuel possible with
  | nil =>
    obtain ⟨fuel, rfl⟩ : ∃ k, fuel = k + 1 := ⟨fuel - 1, by omega⟩
    have hat : b.ptr + possible = e := htiled
    -- the tiling ends here: at the end of the heap, or behind enough bytes
    have hdone : ¬ (possible < needed ∧ wrap (b.ptr + possible) < b.heapEnd) := by
      rintro ⟨hneed, hlt⟩
      rcases hstop with h | h | ⟨c, hc, -⟩
      · unfold wrap at hlt
        omega
      · omega
      · exact absurd hc List.not_mem_nil
    refine ⟨possible, [], [], ?_, rfl, ?_, rfl, htiled, hbound, ?_⟩
    · rw [mergeLoop, if_neg hdone]
    · exact fun c hc => absurd hc List.not_mem_nil
    · rw [freeRun, if_neg (by omega)]
      omega
  | cons c ys ih =>
    obtain ⟨fuel, rfl⟩ : ∃ k, fuel = k + 1 := ⟨fuel - 1, by omega⟩
    rw [List.length_cons] at hfuel
    obtain ⟨hptr, htag, hys⟩ := htiled
    have hle := hys.le
    have hstart : b.ptr + possible < e := by
      unfold Block.stop at hle
      omega
    have hrun := le_freeRun m (fuel + 1) (b.ptr + possible) e
    by_cases hneed : possible < needed
    · rw [mergeLoop_succ _ rfl (by omega) hend hneed, htag]
      rw [freeRun, htag]
      by_cases hused : c.used = true
      · -- a used block ends the loop
        rw [if_pos hused, if_neg (by simp [hused])]
        refine ⟨possible, [], c :: ys, rfl, rfl, ?_, rfl, ⟨hptr, htag, hys⟩, hbound, by omega⟩
        exact fun c hc => absurd hc List.not_mem_nil
      · -- a free block: the loop goes on behind it
        rw [Bool.not_eq_true] at hused
        have hsize := tag_snd_lt m (b.ptr + possible)
        rw [htag] at hsize
        unfold Block.stop at hle
        have hnext : wrap (possible + wrap (c.size + 4)) = possible + (c.size + 4) := by
          unfold wrap
          omega
        have hpos : b.ptr + (possible + (c.size + 4)) = c.stop := by
          unfold Block.stop
          omega
        have hpos' : b.ptr + possible + 4 + c.size = c.stop := by
          unfold Block.stop
          omega
        have hstop' : e = b.heapEnd ∨ b.ptr + needed ≤ e ∨ ∃ d ∈ ys, d.used = true := by
          refine hstop.imp_right (Or.imp_right ?_)
          rintro ⟨d, hd, hdused⟩
          rcases List.mem_cons.mp hd with rfl | hd
          · rw [hused] at hdused
            cases hdused
          · exact ⟨d, hd, hdused⟩
        have hlen : ys.length < fuel := by omega
        rw [← hpos] at hys
        obtain ⟨r, fs, zs, hloop, rfl, hfree, hfs, hzs, hr, hiff⟩ :=
          ih hys hlen hstop' (by omega)
        rw [hnext, if_neg (by simp [hused]), if_pos ⟨hstart, hused⟩, hpos', ← hpos]
        refine ⟨r, c :: fs, zs, hloop, rfl, ?_, ⟨hptr, htag, ?_⟩, hzs, hr, hiff⟩
        · intro d hd
          rcases List.mem_cons.mp hd with rfl | hd
          · exact hused
          · exact hfree d hd
        · rwa [← hpos]
    · -- the block is large enough already
      rw [mergeLoop, if_neg (by omega)]
      refine ⟨possible, [], c :: ys, rfl, rfl, ?_, rfl, ⟨hptr, htag, hys⟩, hbound, by omega⟩
      exact fun c hc => absurd hc List.not_mem_nil

end mergeLoop

/-! ## Combining -/

section combine

variable {m : Mem} {h : Heap} {xs fs zs : List Block} {c : Block} {a r needed : ℕ}

/-- The size that merging reaches is rounded. -/
lemma Laid.mod_of_run (hl : Laid m h (xs ++ c :: (fs ++ zs)))
    (hfs : Tiled (tag m) 4 c.stop fs (c.ptr + r)) : r % 8 = 4 := by
  have hc : c.size % 8 = 4 := hl.sizes c (by simp)
  obtain ⟨n, hn⟩ := hfs.dvd (k := 8) fun b hb => by
    have hb' := hl.sizes b (by simp [hb])
    omega
  unfold Block.stop at hn
  omega

/-- More was merged than is needed: the rest gets a tag of its own. -/
lemma combine_of_lt {p n heapEnd : ℕ} (hmore : needed + 4 ≤ r)
    (hend : p + r < 2 ^ 32) :
    combine m ⟨p, n, heapEnd⟩ r needed = (true, ⟨p, needed, heapEnd⟩,
      markFree (writeSize (writeSize m p needed) (p + needed + 4) (r - needed - 4))
        (p + needed + 4)) := by
  have hlt : needed < r := by omega
  have hnew : (if r < needed then r else needed) = needed := if_neg (by omega)
  have hfreed : diff (diff r needed) sizeMarker = r - needed - 4 := by
    unfold diff sizeMarker
    omega
  have hrem : wrap (wrap (p + needed) + sizeMarker) = p + needed + 4 := by
    unfold wrap sizeMarker
    omega
  unfold UosioCdt.Malloc.combine
  simp only [hnew, if_pos hlt, hfreed, hrem]
  rw [decide_true]

/-- No more was merged than is needed: the block gets all of it. -/
lemma combine_of_le {p n heapEnd : ℕ} (hle : r ≤ needed) :
    combine m ⟨p, n, heapEnd⟩ r needed =
      (decide (needed ≤ r), ⟨p, r, heapEnd⟩, writeSize m p r) := by
  have hnew : (if r < needed then r else needed) = r := by
    split
    · rfl
    · omega
  have hdec : decide (r = needed) = decide (needed ≤ r) := by
    rw [decide_eq_decide]
    omega
  unfold UosioCdt.Malloc.combine
  simp only [hnew, if_neg (Nat.not_lt.mpr hle)]
  rw [hdec]

/-- The block takes over the run behind it, and the bytes that are not needed become a free block. -/
lemma Laid.combine (hl : Laid m h (xs ++ c :: (fs ++ zs)))
    (hxs : Tiled (tag m) 4 h.heap xs a) (hptr : c.ptr = a + 4) (htag : (tag m a).1 = c.used)
    (hfs : Tiled (tag m) 4 c.stop fs (c.ptr + r))
    (hzs : Tiled (tag m) 4 (c.ptr + r) zs (h.heap + h.offset))
    (hneeded : needed % 8 = 4) (hlt : needed < 2 ^ 31) (hr : r < needed + 2 ^ 31 + 4)
    (n heapEnd : ℕ) :
    ∃ rest m', combine m ⟨c.ptr, n, heapEnd⟩ r needed
        = (decide (needed ≤ r), ⟨c.ptr, min r needed, heapEnd⟩, m') ∧
      (∀ d ∈ rest, d.used = false) ∧ (r < needed → rest = []) ∧
      Laid m' h (xs ++ (⟨c.ptr, min r needed, c.used⟩ :: rest) ++ zs) ∧
      ∀ x, x < a ∨ (c.ptr ≤ x ∧ x < c.ptr + needed) ∨ c.ptr + r ≤ x → m' x = m x := by
  have hmod := hl.mod_of_run hfs
  have hend := hl.end_lt
  have hoff := hl.offset_le
  have hle := hzs.le
  have hsizes (d : Block) (hd : d ∈ xs ∨ d ∈ zs) : d.size % 8 = 4 := hl.sizes d (by
    simp only [List.mem_append, List.mem_cons]
    tauto)
  by_cases hmore : needed < r
  · -- the block gets the needed size, and a free block follows it
    have hsize := retags_writeSize (m := m) hptr (by omega) hlt
    have hfree := retags_free (m := writeSize m c.ptr needed) (n := r - needed - 4)
      (a := c.ptr + needed) rfl (by omega) (by omega)
    have hmin : min r needed = needed := by omega
    refine ⟨[⟨c.ptr + needed + 4, r - needed - 4, false⟩],
      markFree (writeSize (writeSize m c.ptr needed) (c.ptr + needed + 4) (r - needed - 4))
        (c.ptr + needed + 4), ?_, ?_, fun hlt => absurd hmore (by omega), ?_, ?_⟩
    · rw [combine_of_lt (by omega) (by omega), hmin, decide_eq_true hmore.le]
    · intro d hd
      rw [List.mem_singleton.mp hd]
    · rw [hmin]
      refine hl.replace hxs ⟨hptr, ?_, rfl, hfree.tag_eq, ?_⟩ hzs ?_ ?_
      · rw [← htag, ← hsize.tag_eq]
        exact tag_congr fun x _ hx => hfree.outside x (.inl (by omega))
      · show c.ptr + needed + 4 + (r - needed - 4) = c.ptr + r
        omega
      · intro d hd
        simp only [List.mem_append, List.mem_cons, List.not_mem_nil, or_false] at hd
        rcases hd with (hd | rfl | rfl) | hd
        · exact hsizes d (.inl hd)
        · exact hneeded
        · show (r - needed - 4) % 8 = 4
          omega
        · exact hsizes d (.inr hd)
      · intro x hx
        rw [hfree.outside x (by omega), hsize.outside x (by omega)]
    · intro x hx
      rw [hfree.outside x (by omega), hsize.outside x (by omega)]
  · -- the block gets all of the run
    have hmin : min r needed = r := by omega
    have hsize := retags_writeSize (m := m) (n := r) hptr (by omega) (by omega)
    refine ⟨[], writeSize m c.ptr r, ?_, ?_, fun _ => rfl, ?_, ?_⟩
    · rw [combine_of_le (by omega), hmin]
    · exact fun d hd => absurd hd List.not_mem_nil
    · rw [hmin]
      refine hl.replace hxs ⟨hptr, ?_, rfl⟩ hzs ?_ ?_
      · rw [← htag]
        exact hsize.tag_eq
      · intro d hd
        simp only [List.mem_append, List.mem_singleton] at hd
        rcases hd with (hd | rfl) | hd
        · exact hsizes d (.inl hd)
        · exact hmod
        · exact hsizes d (.inr hd)
      · intro x hx
        change x < a ∨ c.ptr + r ≤ x at hx
        exact hsize.outside x (by omega)
    · exact fun x hx => hsize.outside x (by omega)

end combine

end UosioCdt.Malloc
