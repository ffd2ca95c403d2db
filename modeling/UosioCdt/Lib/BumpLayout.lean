import Mathlib.Algebra.Group.Nat.Defs
import Mathlib.Data.List.Basic
import Mathlib.Data.Nat.Init
import Mathlib.Tactic.NormNum

/-!
# Areas that are laid out upwards

An area is an address and a size. Areas are put behind each other, each at the next multiple of its
alignment. An area may itself hold smaller ones.
-/

namespace UosioCdt.BumpLayout

/-! ## Alignment -/

/-- The next multiple of `align`. -/
def alignTo (value align : ℕ) : ℕ := (value + align - 1) / align * align

section alignTo

variable {value align : ℕ}

lemma dvd_alignTo (value align : ℕ) : align ∣ alignTo value align := Nat.dvd_mul_left _ _

lemma le_alignTo (value : ℕ) (h : 0 < align) : value ≤ alignTo value align := by
  have hdiv := Nat.div_add_mod (value + align - 1) align
  have hmod := Nat.mod_lt (value + align - 1) h
  rw [Nat.mul_comm] at hdiv
  unfold alignTo
  omega

lemma alignTo_le {bound : ℕ} (h : 0 < align) (hdvd : align ∣ bound) (hle : value ≤ bound) :
    alignTo value align ≤ bound := by
  obtain ⟨k, rfl⟩ := hdvd
  have hlt : (value + align - 1) / align < k + 1 := by
    rw [Nat.div_lt_iff_lt_mul h, Nat.add_mul, Nat.one_mul, Nat.mul_comm k]
    omega
  unfold alignTo
  rw [Nat.mul_comm]
  exact Nat.mul_le_mul_left _ (Nat.lt_succ_iff.mp hlt)

/-- The larger one of two powers is a multiple of both. -/
lemma pow_dvd_max (b : ℕ) {i j : ℕ} (hb : 0 < b) :
    b ^ i ∣ max (b ^ i) (b ^ j) ∧ b ^ j ∣ max (b ^ i) (b ^ j) := by
  rcases Nat.le_total i j with h | h
  · rw [Nat.max_eq_right (Nat.pow_le_pow_right hb h)]
    exact ⟨Nat.pow_dvd_pow b h, Nat.dvd_refl _⟩
  · rw [Nat.max_eq_left (Nat.pow_le_pow_right hb h)]
    exact ⟨Nat.dvd_refl _, Nat.pow_dvd_pow b h⟩

end alignTo

/-! ## Areas -/

/-- The areas lie between `a` and `e` in ascending order. There may be gaps. -/
def Stacked : ℕ → List (ℕ × ℕ) → ℕ → Prop
  | a, [], e => a ≤ e
  | a, area :: areas, e => a ≤ area.1 ∧ Stacked (area.1 + area.2) areas e

section stacked

variable {a b e : ℕ} {areas areas' : List (ℕ × ℕ)}

lemma Stacked.bounds (h : Stacked a areas e) :
    a ≤ e ∧ ∀ area ∈ areas, a ≤ area.1 ∧ area.1 + area.2 ≤ e := by
  induction areas generalizing a with
  | nil => exact ⟨h, fun area harea => absurd harea List.not_mem_nil⟩
  | cons first areas ih =>
    obtain ⟨hpos, hrest⟩ := h
    obtain ⟨hle, hmem⟩ := ih hrest
    refine ⟨by omega, fun area harea => ?_⟩
    rcases List.mem_cons.mp harea with rfl | harea
    · exact ⟨hpos, hle⟩
    · have := hmem area harea
      omega

lemma stacked_mono (hab : a ≤ b) (h : Stacked b areas e) : Stacked a areas e := by
  cases areas with
  | nil => exact Nat.le_trans hab h
  | cons area areas => exact ⟨Nat.le_trans hab h.1, h.2⟩

lemma stacked_append (h : Stacked a areas b) (h' : Stacked b areas' e) :
    Stacked a (areas ++ areas') e := by
  induction areas generalizing a with
  | nil => exact stacked_mono h h'
  | cons area areas ih => exact ⟨h.1, ih h.2⟩

/-- Two areas have no cell in common. -/
lemma Stacked.pairwise (h : Stacked a areas e) :
    areas.Pairwise fun area area' => area.1 + area.2 ≤ area'.1 := by
  induction areas generalizing a with
  | nil => exact List.Pairwise.nil
  | cons area areas ih =>
    exact List.pairwise_cons.mpr ⟨fun area' harea' => (h.2.bounds.2 area' harea').1, ih h.2⟩

lemma stacked_shift (k : ℕ) (h : Stacked a areas e) :
    Stacked (k + a) (areas.map fun area => (k + area.1, area.2)) (k + e) := by
  induction areas generalizing a with
  | nil => exact Nat.add_le_add_left h k
  | cons area areas ih =>
    refine ⟨Nat.add_le_add_left h.1 k, ?_⟩
    have hrest := ih h.2
    rwa [← Nat.add_assoc] at hrest

/-- Every area can be replaced by the ones it holds. -/
lemma stacked_flatMap {β : Type} {l : List β} {pos size : β → ℕ} {parts : β → List (ℕ × ℕ)}
    (h : Stacked a (l.map fun x => (pos x, size x)) e)
    (hparts : ∀ x ∈ l, Stacked (pos x) (parts x) (pos x + size x)) :
    Stacked a (l.flatMap parts) e := by
  induction l generalizing a with
  | nil => exact h
  | cons x l ih =>
    rw [List.flatMap_cons]
    exact stacked_append (stacked_mono h.1 (hparts x List.mem_cons_self))
      (ih h.2 fun y hy => hparts y (List.mem_cons_of_mem _ hy))

end stacked

end UosioCdt.BumpLayout
