import UosioCdt.Lib.Tiling
import UosioCdt.Malloc.Memory
import Mathlib.Data.Nat.Bitwise

/-!
# The size words of the blocks

What `buffer_ptr` does to the size word of a block, and that it leaves the other bytes alone.
-/

namespace UosioCdt.Malloc

open LittleEndian

variable {m m' : Mem} {a x v n : ℕ} {u : Bool}

/-! ## Words -/

lemma load_lt (m : Mem) (a : ℕ) : load m a < 2 ^ 32 := by
  have hlt := ofBytes_lt [m a, m (a + 1), m (a + 2), m (a + 3)]
  simpa [load] using hlt

/-- A word depends on its four bytes. -/
lemma load_congr (h : ∀ x, a ≤ x → x < a + 4 → m' x = m x) : load m' a = load m a := by
  unfold load
  rw [h a (by omega) (by omega), h (a + 1) (by omega) (by omega), h (a + 2) (by omega) (by omega),
    h (a + 3) (by omega) (by omega)]

lemma load_store (hv : v < 2 ^ 32) : load (store m a v) a = v := by
  have hbytes : [store m a v a, store m a v (a + 1), store m a v (a + 2), store m a v (a + 3)]
      = toBytes 4 v := by
    simp [store, toBytes]
  unfold load
  rw [hbytes, ofBytes_toBytes]
  exact Nat.mod_eq_of_lt hv

lemma store_of_outside (hx : x < a ∨ a + 4 ≤ x) : store m a v x = m x := by
  unfold store
  rw [if_neg (by omega)]

/-! ## The allocation bit -/

lemma and_allocMask (w : ℕ) (hw : w < 2 ^ 32) : w &&& allocMask = w / 2 ^ 31 * 2 ^ 31 := by
  have hbit : w / 2 ^ 31 < 2 := by omega
  unfold allocMask
  rw [Nat.and_two_pow, Nat.testBit_eq_decide_div_mod_eq, Nat.mod_eq_of_lt hbit]
  rcases (by omega : w / 2 ^ 31 = 0 ∨ w / 2 ^ 31 = 1) with h | h <;> rw [h] <;> rfl

lemma and_sizeMask (w : ℕ) : w &&& sizeMask = w % 2 ^ 31 := Nat.and_two_pow_sub_one_eq_mod w 31

/-- A size below 2^31 leaves room for the allocation bit. -/
lemma or_mul_allocMask (hn : n < 2 ^ 31) (k : ℕ) : n ||| k * 2 ^ 31 = n + k * 2 ^ 31 := by
  rw [Nat.or_comm, Nat.mul_comm, ← Nat.two_pow_add_eq_or_of_lt hn, Nat.add_comm]

lemma or_allocMask (w : ℕ) (hw : w < 2 ^ 32) : w ||| allocMask = w % 2 ^ 31 + 2 ^ 31 := by
  have hmod : w % 2 ^ 31 < 2 ^ 31 := Nat.mod_lt _ (by decide)
  have hlow : w % 2 ^ 31 ||| w / 2 ^ 31 * 2 ^ 31 = w := by
    rw [or_mul_allocMask hmod]
    omega
  have htop : w / 2 ^ 31 ||| 1 = 1 := by
    rcases (by omega : w / 2 ^ 31 = 0 ∨ w / 2 ^ 31 = 1) with h | h <;> rw [h] <;> rfl
  have hshift (k : ℕ) : k * 2 ^ 31 = k <<< 31 := (Nat.shiftLeft_eq k 31).symm
  have hor : w / 2 ^ 31 * 2 ^ 31 ||| allocMask = 1 * 2 ^ 31 := by
    show w / 2 ^ 31 * 2 ^ 31 ||| 1 * 2 ^ 31 = 1 * 2 ^ 31
    rw [hshift, hshift, ← Nat.shiftLeft_or_distrib, htop]
  calc w ||| allocMask = w % 2 ^ 31 ||| (w / 2 ^ 31 * 2 ^ 31 ||| allocMask) := by
        rw [← Nat.or_assoc, hlow]
    _ = w % 2 ^ 31 + 2 ^ 31 := by rw [hor, or_mul_allocMask hmod, Nat.one_mul]

/-! ## Tags -/

/-- The state and the size in a size word. -/
def tag (m : Mem) (a : ℕ) : Bool × ℕ := (load m a &&& allocMask ≠ 0, load m a &&& sizeMask)

lemma tag_congr (h : ∀ x, a ≤ x → x < a + 4 → m' x = m x) : tag m' a = tag m a := by
  unfold tag
  rw [load_congr h]

lemma tag_eq (m : Mem) (a : ℕ) :
    tag m a = (decide (2 ^ 31 ≤ load m a), load m a % 2 ^ 31) := by
  have hw := load_lt m a
  unfold tag
  rw [and_sizeMask, and_allocMask _ hw]
  congr 1
  rw [decide_eq_decide]
  omega

lemma tag_snd_lt (m : Mem) (a : ℕ) : (tag m a).2 < 2 ^ 31 := by
  rw [tag_eq]
  exact Nat.mod_lt _ (by decide)

/-- The word with this state and size. -/
def word (u : Bool) (n : ℕ) : ℕ := n + if u then 2 ^ 31 else 0

/-- The size word at `a` becomes that of the block, and nothing else changes. -/
structure Retags (m m' : Mem) (a : ℕ) (u : Bool) (n : ℕ) : Prop where
  tag_eq : tag m' a = (u, n)
  outside : ∀ x, x < a ∨ a + 4 ≤ x → m' x = m x

lemma retags_store (hn : n < 2 ^ 31) : Retags m (store m a (word u n)) a u n := by
  have hv : word u n < 2 ^ 32 := by
    unfold word
    split <;> omega
  refine ⟨?_, fun x hx => store_of_outside hx⟩
  rw [tag_eq, load_store hv]
  unfold word
  cases u
  · simp only [Bool.false_eq_true, if_false, Nat.add_zero, Nat.mod_eq_of_lt hn]
    congr 1
    rw [decide_eq_false_iff_not]
    omega
  · have hmod : (n + 2 ^ 31) % 2 ^ 31 = n := by omega
    rw [if_pos rfl, hmod, decide_eq_true (Nat.le_add_left _ _)]

lemma Retags.trans {m'' : Mem} {u' : Bool} {n' : ℕ} (h : Retags m m' a u n)
    (h' : Retags m' m'' a u' n') : Retags m m'' a u' n' :=
  ⟨h'.tag_eq, fun x hx => (h'.outside x hx).trans (h.outside x hx)⟩

lemma marker_eq {p : ℕ} (hp : p = a + 4) (hlt : p < 2 ^ 32) : marker p = a := by
  unfold marker diff sizeMarker
  omega

section blocks

variable {p : ℕ} (hp : p = a + 4) (hlt : p < 2 ^ 32)
include hp hlt

/-- `size(val)` keeps the state. -/
lemma retags_writeSize (hn : n < 2 ^ 31) : Retags m (writeSize m p n) a (tag m a).1 n := by
  have hw := load_lt m a
  have hword : n ||| (load m a &&& allocMask) = word (tag m a).1 n := by
    rw [and_allocMask _ hw, or_mul_allocMask hn, tag_eq]
    unfold word
    by_cases hbit : 2 ^ 31 ≤ load m a
    · simp only [hbit, decide_true, if_true]
      omega
    · simp only [hbit, decide_false, Bool.false_eq_true, if_false]
      omega
  unfold writeSize
  rw [marker_eq hp hlt]
  show Retags m (store m a (n ||| (load m a &&& allocMask))) a (tag m a).1 n
  rw [hword]
  exact retags_store hn

/-- `mark_alloc()` keeps the size. -/
lemma retags_markAlloc : Retags m (markAlloc m p) a true (tag m a).2 := by
  have hword : load m a ||| allocMask = word true (tag m a).2 := by
    rw [or_allocMask _ (load_lt m a), tag_eq]
    rfl
  unfold markAlloc
  rw [marker_eq hp hlt, hword]
  exact retags_store (tag_snd_lt m a)

/-- `mark_free()` keeps the size. -/
lemma retags_markFree : Retags m (markFree m p) a false (tag m a).2 := by
  have hword : load m a &&& sizeMask = word false (tag m a).2 := rfl
  unfold markFree
  rw [marker_eq hp hlt, hword]
  exact retags_store (tag_snd_lt m a)

lemma retags_alloc (hn : n < 2 ^ 31) : Retags m (markAlloc (writeSize m p n) p) a true n := by
  have hsize := retags_writeSize (m := m) hp hlt hn
  have halloc := retags_markAlloc (m := writeSize m p n) hp hlt
  rw [hsize.tag_eq] at halloc
  exact hsize.trans halloc

lemma retags_free (hn : n < 2 ^ 31) : Retags m (markFree (writeSize m p n) p) a false n := by
  have hsize := retags_writeSize (m := m) hp hlt hn
  have hfree := retags_markFree (m := writeSize m p n) hp hlt
  rw [hsize.tag_eq] at hfree
  exact hsize.trans hfree

lemma isAlloc_eq : isAlloc m p = (tag m a).1 := by
  unfold isAlloc
  rw [marker_eq hp hlt]
  rfl

lemma bufferAt_eq (heapEnd : ℕ) : bufferAt m p heapEnd = ⟨p, (tag m a).2, heapEnd⟩ := by
  unfold bufferAt
  rw [marker_eq hp hlt]
  rfl

end blocks

end UosioCdt.Malloc
