import Mathlib.Algebra.Group.Nat.Defs
import Mathlib.Data.List.Basic
import Mathlib.Data.List.Pairwise
import Mathlib.Data.List.Perm.Basic
import Mathlib.Tactic.Lemma

/-!
# Writing blocks into a buffer

A buffer is a function from places to cells, and a write puts a list of cells at a place. Writes that
are apart can be made in any order, and each is read back (`slice_writeAll`). Blocks behind each
other make one region (`slice_writeAll_consecutive`), and fields that are overwritten in order splice
it (`slice_overwrite`).
-/

namespace BlockWrites

variable {α : Type}

/-- Some cells and the place of the first one. -/
structure Write (α : Type) where
  pos : ℕ
  cells : List α

namespace Write

/-- The place behind the last cell. -/
def stop (w : Write α) : ℕ := w.pos + w.cells.length

/-- The buffer behind the write. -/
def apply (w : Write α) (m : ℕ → α) : ℕ → α := fun a =>
  if a < w.pos then m a else (w.cells[a - w.pos]?).getD (m a)

/-- The writes touch no common cell. -/
def Apart (w w' : Write α) : Prop := w.stop ≤ w'.pos ∨ w'.stop ≤ w.pos

variable {w w' : Write α} {m : ℕ → α} {a : ℕ}

lemma apart_symm (h : w.Apart w') : w'.Apart w := Or.symm h

lemma apply_outside (h : a < w.pos ∨ w.stop ≤ a) : w.apply m a = m a := by
  unfold apply stop at *
  split
  · rfl
  · rw [List.getElem?_eq_none (by omega)]
    rfl

lemma apply_inside {i : ℕ} (hi : i < w.cells.length) : w.apply m (w.pos + i) = w.cells[i] := by
  unfold apply
  rw [if_neg (by omega), Nat.add_sub_cancel_left, List.getElem?_eq_getElem hi]
  rfl

/-- Writes that are apart commute. -/
lemma apply_comm (h : w.Apart w') : w.apply (w'.apply m) = w'.apply (w.apply m) := by
  funext a
  unfold Apart stop at h
  by_cases hw : a < w.pos ∨ w.stop ≤ a
  · rw [apply_outside hw]
    by_cases hw' : a < w'.pos ∨ w'.stop ≤ a
    · rw [apply_outside hw', apply_outside hw', apply_outside hw]
    · unfold stop at hw hw'
      obtain ⟨i, rfl⟩ := Nat.exists_eq_add_of_le (show w'.pos ≤ a by omega)
      rw [apply_inside (by omega), apply_inside (by omega)]
  · unfold stop at hw
    obtain ⟨i, rfl⟩ := Nat.exists_eq_add_of_le (show w.pos ≤ a by omega)
    have hout : w.pos + i < w'.pos ∨ w'.stop ≤ w.pos + i := by
      unfold stop
      omega
    rw [apply_inside (by omega), apply_outside hout, apply_inside (by omega)]

end Write

/-! ## Several writes -/

/-- One write after another. -/
def writeAll (ws : List (Write α)) (m : ℕ → α) : ℕ → α := ws.foldl (fun m w => w.apply m) m

/-- The cells from a place on. -/
def slice (m : ℕ → α) (pos n : ℕ) : List α := (List.range n).map fun i => m (pos + i)

section several

variable {ws ws' : List (Write α)} {w : Write α} {m m' : ℕ → α} {a n k : ℕ}

@[simp] lemma writeAll_cons (w : Write α) (ws : List (Write α)) (m : ℕ → α) :
    writeAll (w :: ws) m = writeAll ws (w.apply m) := rfl

lemma writeAll_append (ws ws' : List (Write α)) (m : ℕ → α) :
    writeAll (ws ++ ws') m = writeAll ws' (writeAll ws m) := List.foldl_append

/-- A cell that no write touches. -/
lemma writeAll_outside (h : ∀ w ∈ ws, a < w.pos ∨ w.stop ≤ a) : writeAll ws m a = m a := by
  induction ws generalizing m with
  | nil => rfl
  | cons w ws ih =>
    rw [writeAll_cons, ih fun w' hw' => h w' (List.mem_cons_of_mem _ hw'),
      Write.apply_outside (h w List.mem_cons_self)]

/-- A cell of a write that is apart from the others. -/
lemma writeAll_inside (h : ws.Pairwise Write.Apart) (hw : w ∈ ws) {i : ℕ}
    (hi : i < w.cells.length) : writeAll ws m (w.pos + i) = w.cells[i] := by
  induction ws generalizing m with
  | nil => exact absurd hw List.not_mem_nil
  | cons v ws ih =>
    obtain ⟨hhead, htail⟩ := List.pairwise_cons.mp h
    rw [writeAll_cons]
    rcases List.mem_cons.mp hw with rfl | hmem
    · rw [writeAll_outside, Write.apply_inside hi]
      intro w' hw'
      have hapart := hhead w' hw'
      unfold Write.Apart Write.stop at hapart
      unfold Write.stop
      omega
    · exact ih htail hmem

@[simp] lemma length_slice (m : ℕ → α) (a n : ℕ) : (slice m a n).length = n := by simp [slice]

lemma getElem_slice {i : ℕ} (hi : i < (slice m a n).length) : (slice m a n)[i] = m (a + i) := by
  simp [slice]

lemma slice_congr (h : ∀ i < n, m (a + i) = m' (a + i)) : slice m a n = slice m' a n :=
  List.map_congr_left fun i hi => h i (List.mem_range.mp hi)

lemma slice_append (m : ℕ → α) (a n k : ℕ) :
    slice m a (n + k) = slice m a n ++ slice m (a + n) k := by
  simp only [slice, List.range_add, List.map_append, List.map_map, Function.comp_def, Nat.add_assoc]

/-- The cells of a write that is apart from the others. -/
lemma slice_writeAll (h : ws.Pairwise Write.Apart) (hw : w ∈ ws) :
    slice (writeAll ws m) w.pos w.cells.length = w.cells := by
  refine List.ext_getElem (length_slice _ _ _) fun i hi hi' => ?_
  rw [getElem_slice]
  exact writeAll_inside h hw hi'

lemma slice_apply (w : Write α) (m : ℕ → α) : slice (w.apply m) w.pos w.cells.length = w.cells :=
  slice_writeAll (List.pairwise_singleton _ w) (List.mem_singleton_self w)

/-- Regions with the same cells agree in every part. -/
lemma slice_part {b i : ℕ} (h : slice m a k = slice m' b k) (hi : i + n ≤ k) :
    slice m (a + i) n = slice m' (b + i) n := by
  refine List.ext_getElem (by simp) fun j hj hj' => ?_
  rw [length_slice] at hj
  have hcell : (slice m a k)[i + j]? = (slice m' b k)[i + j]? := congrArg (·[i + j]?) h
  rw [List.getElem?_eq_getElem (by rw [length_slice]; omega),
    List.getElem?_eq_getElem (by rw [length_slice]; omega), getElem_slice, getElem_slice] at hcell
  rw [getElem_slice, getElem_slice, Nat.add_assoc, Nat.add_assoc]
  exact Option.some.inj hcell

/-- A buffer that differs in one region is the one that this region is written to. -/
lemma eq_apply_slice (h : ∀ a, a < k ∨ k + n ≤ a → m' a = m a) :
    m' = (⟨k, slice m' k n⟩ : Write α).apply m := by
  funext a
  by_cases hin : a < k ∨ k + n ≤ a
  · rw [h a hin, Write.apply_outside]
    unfold Write.stop
    rw [length_slice]
    exact hin
  · obtain ⟨i, rfl⟩ := Nat.exists_eq_add_of_le (show k ≤ a by omega)
    have hi : i < (slice m' k n).length := by
      rw [length_slice]
      omega
    exact ((Write.apply_inside hi).trans (getElem_slice hi)).symm

end several

/-! ## Writers at the same time -/

/-- The list is an interleaving of the lists. -/
inductive Interleaves {β : Type} : List (List β) → List β → Prop where
  | done {ts : List (List β)} (h : ∀ t ∈ ts, t = []) : Interleaves ts []
  | step {ts ts' : List (List β)} {x : β} {t xs : List β} (h : Interleaves (ts ++ t :: ts') xs) :
      Interleaves (ts ++ (x :: t) :: ts') (x :: xs)

/-- A writer is split into several ones that take turns. -/
lemma interleaves_split {β : Type} {tss : List (List (List β))} {xs : List β}
    (h : Interleaves (tss.map List.flatten) xs) : Interleaves tss.flatten xs := by
  generalize hts : tss.map List.flatten = ts at h
  induction h generalizing tss with
  | done hnil =>
    refine .done fun t ht => ?_
    obtain ⟨us, hus, htus⟩ := List.mem_flatten.mp ht
    have hflat := hnil us.flatten (hts ▸ List.mem_map_of_mem hus)
    exact List.flatten_eq_nil_iff.mp hflat t htus
  | @step ts ts' x t xs _ ih =>
    obtain ⟨pre, rest, rfl, rfl, hrest⟩ := List.map_eq_append_iff.mp hts
    obtain ⟨us, post, rfl, hus, rfl⟩ := List.map_eq_cons_iff.mp hrest
    obtain ⟨empty, t', others, rfl, hempty, rfl⟩ := List.flatten_eq_cons_iff.mp hus
    have hflat : (empty ++ t' :: others).flatten = t' ++ others.flatten := by
      rw [List.flatten_append, List.flatten_eq_nil_iff.mpr hempty, List.flatten_cons,
        List.nil_append]
    have hsmaller := @ih (pre ++ (empty ++ t' :: others) :: post) (by
      rw [List.map_append, List.map_cons, hflat])
    simp only [List.flatten_append, List.flatten_cons, List.append_assoc, List.cons_append]
      at hsmaller ⊢
    rw [← List.append_assoc] at hsmaller ⊢
    exact .step hsmaller

/-- The writers touch no common cell. -/
def ApartLists (t t' : List (Write α)) : Prop := ∀ w ∈ t, ∀ w' ∈ t', w.Apart w'

lemma writeAll_apply {w : Write α} {ws : List (Write α)} (h : ∀ w' ∈ ws, w.Apart w') (m : ℕ → α) :
    writeAll ws (w.apply m) = w.apply (writeAll ws m) := by
  induction ws generalizing m with
  | nil => rfl
  | cons v ws ih =>
    rw [writeAll_cons, writeAll_cons, ← Write.apply_comm (h v List.mem_cons_self),
      ih fun w' hw' => h w' (List.mem_cons_of_mem _ hw')]

/-- Writers that are apart can be interleaved in any way. -/
theorem writeAll_interleaves {ts : List (List (Write α))} {ws : List (Write α)}
    (h : Interleaves ts ws) (hapart : ts.Pairwise ApartLists) (m : ℕ → α) :
    writeAll ws m = writeAll ts.flatten m := by
  induction h generalizing m with
  | done hnil => rw [List.flatten_eq_nil_iff.mpr hnil]
  | @step ts ts' w t ws h ih =>
    obtain ⟨hts, hrest, hcross⟩ := List.pairwise_append.mp hapart
    obtain ⟨hhead, htail⟩ := List.pairwise_cons.mp hrest
    have hsmaller : (ts ++ t :: ts').Pairwise ApartLists := by
      refine List.pairwise_append.mpr ⟨hts, List.pairwise_cons.mpr ⟨?_, htail⟩, ?_⟩
      · exact fun t' ht' v hv => hhead t' ht' v (List.mem_cons_of_mem _ hv)
      · intro u hu t' ht'
        rcases List.mem_cons.mp ht' with rfl | ht'
        · exact fun v hv v' hv' =>
            hcross u hu _ List.mem_cons_self v hv v' (List.mem_cons_of_mem _ hv')
        · exact hcross u hu t' (List.mem_cons_of_mem _ ht')
    -- the first write moves behind those of the writers in front of its own
    have hmove : ∀ v ∈ ts.flatten, w.Apart v := by
      intro v hv
      obtain ⟨u, hu, hvu⟩ := List.mem_flatten.mp hv
      exact Write.apart_symm (hcross u hu _ List.mem_cons_self v hvu w List.mem_cons_self)
    rw [writeAll_cons, ih hsmaller]
    simp only [List.flatten_append, List.flatten_cons, writeAll_append, List.cons_append,
      writeAll_cons]
    rw [writeAll_apply hmove]

/-! ## Writers that fill a block -/

/-- However the buffer was, the writes put the block there and nothing else. -/
structure Fills (t : List (Write α)) (w : Write α) : Prop where
  within : ∀ v ∈ t, w.pos ≤ v.pos ∧ v.stop ≤ w.stop
  slice_eq : ∀ m, slice (writeAll t m) w.pos w.cells.length = w.cells

section fills

variable {ts : List (List (Write α))} {t : List (Write α)} {ws order : List (Write α)}
  {w : Write α}

lemma fills_singleton (w : Write α) : Fills [w] w where
  within := by
    intro v hv
    rw [List.mem_singleton.mp hv]
    exact ⟨Nat.le_refl _, Nat.le_refl _⟩
  slice_eq := slice_apply w

/-- The writes are as good as the block at once. -/
lemma Fills.writeAll_eq (h : Fills t w) (m : ℕ → α) : writeAll t m = w.apply m := by
  have hout : ∀ a, a < w.pos ∨ w.pos + w.cells.length ≤ a → writeAll t m a = m a := by
    intro a ha
    refine writeAll_outside fun v hv => ?_
    have hin := h.within v hv
    unfold Write.stop at hin ⊢
    omega
  rw [eq_apply_slice hout, h.slice_eq m]

lemma writeAll_flatten (h : List.Forall₂ Fills ts ws) (m : ℕ → α) :
    writeAll ts.flatten m = writeAll ws m := by
  induction h generalizing m with
  | nil => rfl
  | cons hfill _ ih =>
    rw [List.flatten_cons, writeAll_append, hfill.writeAll_eq, ih, writeAll_cons]

lemma apartLists_of_fills (h : List.Forall₂ Fills ts ws) (hapart : ws.Pairwise Write.Apart) :
    ts.Pairwise ApartLists := by
  induction h with
  | nil => exact List.Pairwise.nil
  | @cons t w ts ws hfill hrest ih =>
    obtain ⟨hhead, htail⟩ := List.pairwise_cons.mp hapart
    refine List.pairwise_cons.mpr ⟨fun t' ht' v hv v' hv' => ?_, ih htail⟩
    obtain ⟨i, hi, rfl⟩ := List.mem_iff_getElem.mp ht'
    have hi' : i < ws.length := hrest.length_eq ▸ hi
    have hfill' : Fills ts[i] ws[i] := hrest.get hi hi'
    have hwithin := hfill.within v hv
    have hwithin' := hfill'.within v' hv'
    have hblocks := hhead ws[i] (List.getElem_mem hi')
    unfold Write.Apart at hblocks ⊢
    omega

/-- Writers that fill blocks that are apart can work at the same time. -/
theorem writeAll_of_fills (h : List.Forall₂ Fills ts ws) (hapart : ws.Pairwise Write.Apart)
    (horder : Interleaves ts order) (m : ℕ → α) : writeAll order m = writeAll ws m := by
  rw [writeAll_interleaves horder (apartLists_of_fills h hapart), writeAll_flatten h]

end fills

/-! ## Blocks behind each other -/

/-- The writes are behind each other, from `a` to `e`. -/
def Consecutive : ℕ → List (Write α) → ℕ → Prop
  | a, [], e => a = e
  | a, w :: ws, e => w.pos = a ∧ Consecutive w.stop ws e

section consecutive

variable {ws : List (Write α)} {w : Write α} {a e : ℕ}

lemma Consecutive.bounds (h : Consecutive a ws e) :
    a ≤ e ∧ ∀ w ∈ ws, a ≤ w.pos ∧ w.stop ≤ e := by
  induction ws generalizing a with
  | nil => exact ⟨Nat.le_of_eq h, fun w hw => absurd hw List.not_mem_nil⟩
  | cons w ws ih =>
    obtain ⟨hpos, hrest⟩ := h
    obtain ⟨hle, hmem⟩ := ih hrest
    unfold Write.stop at hle hmem
    refine ⟨by omega, fun v hv => ?_⟩
    rcases List.mem_cons.mp hv with rfl | hv
    · unfold Write.stop
      omega
    · have := hmem v hv
      unfold Write.stop
      omega

lemma Consecutive.apart (h : Consecutive a ws e) : ws.Pairwise Write.Apart := by
  induction ws generalizing a with
  | nil => exact List.Pairwise.nil
  | cons w ws ih =>
    refine List.pairwise_cons.mpr ⟨fun v hv => ?_, ih h.2⟩
    exact .inl (h.2.bounds.2 v hv).1

/-- The region holds the cells of the blocks in their order. -/
theorem slice_writeAll_consecutive (h : Consecutive a ws e) (m : ℕ → α) :
    slice (writeAll ws m) a (e - a) = ws.flatMap Write.cells := by
  induction ws generalizing a m with
  | nil =>
    rw [show a = e from h, Nat.sub_self]
    rfl
  | cons w ws ih =>
    obtain ⟨rfl, hrest⟩ := h
    have hle := hrest.bounds.1
    have hapart := Consecutive.apart (show Consecutive w.pos (w :: ws) e from ⟨rfl, hrest⟩)
    have hsplit : e - w.pos = w.cells.length + (e - w.stop) := by
      unfold Write.stop at hle ⊢
      omega
    rw [hsplit, slice_append, slice_writeAll hapart List.mem_cons_self, writeAll_cons,
      List.flatMap_cons]
    exact congrArg (w.cells ++ ·) (ih hrest (w.apply m))

/-- Blocks behind each other fill the region. -/
lemma fills_consecutive (h : Consecutive w.pos ws w.stop) (hcells : ws.flatMap Write.cells = w.cells) :
    Fills ws w where
  within := h.bounds.2
  slice_eq := by
    intro m
    have hslice := slice_writeAll_consecutive h m
    rwa [hcells, Write.stop, Nat.add_sub_cancel_left] at hslice

end consecutive

/-! ## Fields that are overwritten -/

/-- A field: where it starts, its width, and what is put in its place. -/
structure Patch (α : Type) where
  pos : ℕ
  width : ℕ
  new : List α

/-- The fields come in order and without overlap, from `a` to `e`. -/
def Ordered : ℕ → List (Patch α) → ℕ → Prop
  | a, [], e => a ≤ e
  | a, f :: fs, e => a ≤ f.pos ∧ Ordered (f.pos + f.width) fs e

/-- The cells from `a` to `e` with every field replaced. -/
def splice (cells : List α) : ℕ → List (Patch α) → ℕ → List α
  | a, [], e => (cells.drop a).take (e - a)
  | a, f :: fs, e =>
    (cells.drop a).take (f.pos - a) ++ f.new ++ splice cells (f.pos + f.width) fs e

section splice

variable {fs : List (Patch α)} {cells : List α} {a e : ℕ}

lemma Ordered.le (h : Ordered a fs e) : a ≤ e := by
  induction fs generalizing a with
  | nil => exact h
  | cons f fs ih =>
    have := ih h.2
    have := h.1
    omega

lemma Ordered.bounds (h : Ordered a fs e) : ∀ f ∈ fs, a ≤ f.pos ∧ f.pos + f.width ≤ e := by
  induction fs generalizing a with
  | nil => exact fun f hf => absurd hf List.not_mem_nil
  | cons f fs ih =>
    intro g hg
    rcases List.mem_cons.mp hg with rfl | hg
    · exact ⟨h.1, h.2.le⟩
    · have := ih h.2 g hg
      have := h.1
      omega

lemma ordered_mono {b : ℕ} (hab : a ≤ b) (h : Ordered b fs e) : Ordered a fs e := by
  cases fs with
  | nil => exact Nat.le_trans hab h
  | cons f fs => exact ⟨Nat.le_trans hab h.1, h.2⟩

/-- The order does not depend on what is put in the place of the fields. -/
lemma ordered_map {β : Type} {pos width : β → ℕ} {new new' : β → List α} {l : List β}
    (h : Ordered a (l.map fun b => ⟨pos b, width b, new b⟩) e) :
    Ordered a (l.map fun b => ⟨pos b, width b, new' b⟩) e := by
  induction l generalizing a with
  | nil => exact h
  | cons b l ih => exact ⟨h.1, ih h.2⟩

/-- The same fields counted from another cell. -/
lemma ordered_sub {β : Type} {pos width : β → ℕ} {new : β → List α} {l : List β} {s : ℕ}
    (new' : β → List α) (hs : s ≤ a) (h : Ordered a (l.map fun b => ⟨pos b, width b, new b⟩) e) :
    Ordered (a - s) (l.map fun b => ⟨pos b - s, width b, new' b⟩) (e - s) := by
  induction l generalizing a with
  | nil => exact Nat.sub_le_sub_right h s
  | cons b l ih =>
    obtain ⟨hpos, hrest⟩ := h
    simp only at hpos hrest
    have hlater := ih (by omega) hrest
    rw [Nat.sub_add_comm (Nat.le_trans hs hpos)] at hlater
    exact ⟨Nat.sub_le_sub_right hpos s, hlater⟩

lemma length_gap {b : ℕ} (hb : b ≤ cells.length) : ((cells.drop a).take (b - a)).length = b - a := by
  rw [List.length_take, List.length_drop]
  omega

/-- The cells in front of the first field can be split. -/
lemma splice_prepend {b : ℕ} (hab : a ≤ b) (h : Ordered b fs e) :
    splice cells a fs e = (cells.drop a).take (b - a) ++ splice cells b fs e := by
  have hgap : ∀ c, b ≤ c → (cells.drop a).take (c - a)
      = (cells.drop a).take (b - a) ++ (cells.drop b).take (c - b) := by
    intro c hc
    rw [show c - a = b - a + (c - b) by omega, List.take_add, List.drop_drop,
      Nat.add_sub_cancel' hab]
  cases fs with
  | nil => exact hgap e h
  | cons f fs =>
    rw [splice, splice, hgap f.pos h.1]
    simp only [List.append_assoc]

/-- Fields that keep their widths keep the number of cells. -/
lemma length_splice_eq (h : Ordered a fs e) (he : e ≤ cells.length)
    (hwidth : ∀ f ∈ fs, f.new.length = f.width) : (splice cells a fs e).length = e - a := by
  induction fs generalizing a with
  | nil => exact length_gap he
  | cons f fs ih =>
    obtain ⟨hpos, hrest⟩ := h
    have hle := hrest.le
    rw [splice, List.length_append, List.length_append, length_gap (by omega),
      hwidth f List.mem_cons_self, ih hrest fun g hg => hwidth g (List.mem_cons_of_mem _ hg)]
    omega

/-- Fields that become no wider do not make more cells. -/
lemma length_splice_le (h : Ordered a fs e) (he : e ≤ cells.length)
    (hwidth : ∀ f ∈ fs, f.new.length ≤ f.width) : (splice cells a fs e).length ≤ e - a := by
  induction fs generalizing a with
  | nil => exact Nat.le_of_eq (length_gap he)
  | cons f fs ih =>
    obtain ⟨hpos, hrest⟩ := h
    have hle := hrest.le
    have hf := hwidth f List.mem_cons_self
    have hrec := ih hrest fun g hg => hwidth g (List.mem_cons_of_mem _ hg)
    rw [splice, List.length_append, List.length_append, length_gap (by omega)]
    omega

/-- Overwriting the fields in place splices the cells, when no field changes its width. The cell at
`s` is at the place `k` of the buffer. -/
theorem slice_overwrite {k s : ℕ} {m : ℕ → α} (hs : s ≤ a) (h : Ordered a fs e)
    (hwidth : ∀ f ∈ fs, f.new.length = f.width)
    (hm : slice m (k + (a - s)) (e - a) = (cells.drop a).take (e - a)) :
    slice (writeAll (fs.map fun f => ⟨k + (f.pos - s), f.new⟩) m) (k + (a - s)) (e - a)
      = splice cells a fs e := by
  induction fs generalizing a m with
  | nil => exact hm
  | cons f fs ih =>
    obtain ⟨hpos, hrest⟩ := h
    have hle := hrest.le
    have hf := hwidth f List.mem_cons_self
    have hbounds := hrest.bounds
    -- the three parts: in front of the field, the field, and the others
    have hgap : slice m (k + (a - s)) (f.pos - a) = (cells.drop a).take (f.pos - a) := by
      have htake := congrArg (List.take (f.pos - a)) hm
      rw [show e - a = f.pos - a + (e - f.pos) by omega, slice_append, List.take_left' (by simp),
        List.take_take, Nat.min_eq_left (by omega)] at htake
      exact htake
    have hbehind : slice m (k + (f.pos + f.width - s)) (e - (f.pos + f.width))
        = (cells.drop (f.pos + f.width)).take (e - (f.pos + f.width)) := by
      have hdrop := congrArg (List.drop (f.pos + f.width - a)) hm
      rw [show e - a = f.pos + f.width - a + (e - (f.pos + f.width)) by omega, slice_append,
        List.drop_left' (by simp), List.drop_take, List.drop_drop,
        show a + (f.pos + f.width - a) = f.pos + f.width by omega,
        show k + (a - s) + (f.pos + f.width - a) = k + (f.pos + f.width - s) by omega,
        show f.pos + f.width - a + (e - (f.pos + f.width)) - (f.pos + f.width - a)
          = e - (f.pos + f.width) by omega] at hdrop
      exact hdrop
    have hlater : ∀ x, x < k + (f.pos + f.width - s) →
        ∀ w ∈ fs.map fun f => (⟨k + (f.pos - s), f.new⟩ : Write α), x < w.pos ∨ w.stop ≤ x := by
      intro x hx w hw
      obtain ⟨g, hg, rfl⟩ := List.mem_map.mp hw
      have := hbounds g hg
      exact .inl (by simp only; omega)
    rw [List.map_cons, writeAll_cons, splice,
      show e - a = f.pos - a + (f.width + (e - (f.pos + f.width))) by omega, slice_append,
      slice_append, List.append_assoc]
    refine congrArg₂ (· ++ ·) ?_ (congrArg₂ (· ++ ·) ?_ ?_)
    · rw [← hgap]
      refine slice_congr fun i hi => ?_
      rw [writeAll_outside (hlater _ (by omega)), Write.apply_outside (.inl (by simp only; omega))]
    · rw [show k + (a - s) + (f.pos - a) = k + (f.pos - s) by omega]
      have hfield : slice (writeAll (fs.map fun f => ⟨k + (f.pos - s), f.new⟩)
          ((⟨k + (f.pos - s), f.new⟩ : Write α).apply m)) (k + (f.pos - s)) f.width
          = slice ((⟨k + (f.pos - s), f.new⟩ : Write α).apply m) (k + (f.pos - s)) f.width :=
        slice_congr fun i hi => writeAll_outside (hlater _ (by omega))
      rw [hfield, ← hf]
      exact slice_apply (⟨k + (f.pos - s), f.new⟩ : Write α) m
    · have hrec := ih (m := (⟨k + (f.pos - s), f.new⟩ : Write α).apply m) (by omega) hrest
        (fun g hg => hwidth g (List.mem_cons_of_mem _ hg)) (by
          rw [← hbehind]
          refine slice_congr fun i hi => Write.apply_outside (.inr ?_)
          unfold Write.stop
          simp only [hf]
          omega)
      rw [show k + (a - s) + (f.pos - a) + f.width = k + (f.pos + f.width - s) by omega]
      exact hrec

end splice

end BlockWrites
