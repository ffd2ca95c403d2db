import Mathlib.Algebra.Group.Nat.Defs
import Mathlib.Order.Lattice
import Mathlib.Tactic.ByContra
import Mathlib.Tactic.Lemma

/-!
# Tilings by tagged blocks

A region of memory is cut into blocks without gaps. A block is a tag of `w` bytes, which says its
size and whether it is used, and then its payload.
-/

namespace Tiling

/-- A block: where its payload starts, its size, and whether it is used. -/
structure Block where
  ptr : ℕ
  size : ℕ
  used : Bool
deriving DecidableEq

/-- The end of the payload. -/
def Block.stop (b : Block) : ℕ := b.ptr + b.size

/-- The tags from `a` to `e` are those of the blocks, in this order. -/
def Tiled (tag : ℕ → Bool × ℕ) (w : ℕ) : ℕ → List Block → ℕ → Prop
  | a, [], e => a = e
  | a, b :: bs, e => b.ptr = a + w ∧ tag a = (b.used, b.size) ∧ Tiled tag w b.stop bs e

variable {tag tag' : ℕ → Bool × ℕ} {w a e : ℕ} {bs xs ys : List Block} {b c : Block}

lemma tiled_nil : Tiled tag w a [] e ↔ a = e := Iff.rfl

lemma tiled_cons : Tiled tag w a (b :: bs) e ↔
    b.ptr = a + w ∧ tag a = (b.used, b.size) ∧ Tiled tag w b.stop bs e := Iff.rfl

lemma tiled_append :
    Tiled tag w a (xs ++ ys) e ↔ ∃ m, Tiled tag w a xs m ∧ Tiled tag w m ys e := by
  induction xs generalizing a with
  | nil => simp [tiled_nil]
  | cons x xs ih =>
    simp only [List.cons_append, tiled_cons, ih]
    constructor
    · rintro ⟨hptr, htag, m, hxs, hys⟩
      exact ⟨m, ⟨hptr, htag, hxs⟩, hys⟩
    · rintro ⟨m, ⟨hptr, htag, hxs⟩, hys⟩
      exact ⟨hptr, htag, m, hxs, hys⟩

lemma Tiled.le (h : Tiled tag w a bs e) : a ≤ e := by
  induction bs generalizing a with
  | nil => exact le_of_eq h
  | cons b bs ih =>
    obtain ⟨hptr, -, hbs⟩ := h
    have hle := ih hbs
    unfold Block.stop at hle
    omega

/-- Every block takes the place of its tag. -/
lemma Tiled.length_le (h : Tiled tag w a bs e) : a + w * bs.length ≤ e := by
  induction bs generalizing a with
  | nil => exact le_of_eq h
  | cons b bs ih =>
    obtain ⟨hptr, -, hbs⟩ := h
    have hle := ih hbs
    unfold Block.stop at hle
    rw [List.length_cons, Nat.mul_succ]
    omega

/-- A block lies inside the region. -/
lemma Tiled.bounds (h : Tiled tag w a bs e) (hb : b ∈ bs) : a + w ≤ b.ptr ∧ b.stop ≤ e := by
  induction bs generalizing a with
  | nil => exact absurd hb List.not_mem_nil
  | cons c bs ih =>
    obtain ⟨hptr, -, hbs⟩ := h
    rcases List.mem_cons.mp hb with rfl | hmem
    · exact ⟨by omega, hbs.le⟩
    · have hin := ih hbs hmem
      unfold Block.stop at hin ⊢
      omega

/-- The region around one of its blocks. -/
lemma Tiled.split (h : Tiled tag w a bs e) (hb : b ∈ bs) :
    ∃ xs ys p, bs = xs ++ b :: ys ∧ b.ptr = p + w ∧ tag p = (b.used, b.size) ∧
      Tiled tag w a xs p ∧ Tiled tag w b.stop ys e := by
  obtain ⟨xs, ys, rfl⟩ := List.append_of_mem hb
  obtain ⟨p, hxs, hptr, htag, hys⟩ := tiled_append.mp h
  exact ⟨xs, ys, p, rfl, hptr, htag, hxs, hys⟩

/-- A tiling depends only on the tags inside its region. -/
lemma Tiled.congr (h : Tiled tag w a bs e)
    (htag : ∀ x, a ≤ x → x + w ≤ e → tag' x = tag x) : Tiled tag' w a bs e := by
  induction bs generalizing a with
  | nil => exact h
  | cons b bs ih =>
    obtain ⟨hptr, hb, hbs⟩ := h
    have hle := hbs.le
    have hstop : a + w ≤ b.stop := by
      unfold Block.stop
      omega
    refine ⟨hptr, ?_, ih hbs fun x hx hxe => htag x (by omega) hxe⟩
    rw [htag a le_rfl (by omega), hb]

/-- Two blocks of a tiling do not overlap, and there is a tag between them. -/
lemma Tiled.apart (h : Tiled tag w a bs e) (hb : b ∈ bs) (hc : c ∈ bs) (hne : b ≠ c) :
    b.stop + w ≤ c.ptr ∨ c.stop + w ≤ b.ptr := by
  induction bs generalizing a with
  | nil => exact absurd hb List.not_mem_nil
  | cons d bs ih =>
    obtain ⟨-, -, hbs⟩ := h
    rcases List.mem_cons.mp hb with rfl | hb'
    · rcases List.mem_cons.mp hc with rfl | hc'
      · exact absurd rfl hne
      · exact .inl (hbs.bounds hc').1
    · rcases List.mem_cons.mp hc with rfl | hc'
      · exact .inr (hbs.bounds hb').1
      · exact ih hbs hb' hc'

/-- A block is determined by its place. -/
lemma Tiled.eq_of_ptr_eq (h : Tiled tag w a bs e) (hw : 0 < w) (hb : b ∈ bs) (hc : c ∈ bs)
    (hptr : b.ptr = c.ptr) : b = c := by
  by_contra hne
  have hapart := h.apart hb hc hne
  unfold Block.stop at hapart
  omega

/-- A region whose blocks are rounded is rounded. -/
lemma Tiled.dvd {k : ℕ} (h : Tiled tag w a bs e) (hk : ∀ b ∈ bs, k ∣ w + b.size) :
    ∃ n, e = a + k * n := by
  induction bs generalizing a with
  | nil => exact ⟨0, h.symm⟩
  | cons b bs ih =>
    obtain ⟨hptr, -, hbs⟩ := h
    obtain ⟨m, hm⟩ := hk b List.mem_cons_self
    obtain ⟨n, hn⟩ := ih hbs fun c hc => hk c (List.mem_cons_of_mem _ hc)
    refine ⟨m + n, ?_⟩
    unfold Block.stop at hn
    rw [Nat.mul_add]
    omega

end Tiling
