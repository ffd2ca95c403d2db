import Mathlib.Algebra.BigOperators.Group.List.Basic
import Mathlib.Algebra.Order.Ring.Nat
import Mathlib.Data.List.Lex
import Mathlib.Tactic.Ring

/-!
# Mixed-radix numerals

* `ofDigits`: the number that a list of digits denotes, each digit in its own base, highest first.
  Digits that are missing at the low end are zeros;
* `digits`: the digits of a number. Both ways round they are inverse (`digits_ofDigits`,
  `ofDigits_digits`);
* numbers are ordered as their digits are, lexicographically (`ofDigits_lt_ofDigits_iff`).
-/

namespace MixedRadix

variable {bs cs ds es : List ℕ} {b v : ℕ}

/-- The number with these digits in these bases. -/
def ofDigits : List ℕ → List ℕ → ℕ
  | [], _ => 0
  | _ :: _, [] => 0
  | _ :: bs, d :: ds => d * bs.prod + ofDigits bs ds

/-- The digits of a number in these bases. -/
def digits : List ℕ → ℕ → List ℕ
  | [], _ => []
  | _ :: bs, v => v / bs.prod :: digits bs (v % bs.prod)

/-- There are at most as many digits as bases, each below its base. -/
def Fit : List ℕ → List ℕ → Prop
  | _, [] => True
  | [], _ :: _ => False
  | b :: bs, d :: ds => d < b ∧ Fit bs ds

@[simp] lemma ofDigits_nil (bs : List ℕ) : ofDigits bs [] = 0 := by cases bs <;> rfl

@[simp] lemma length_digits (bs : List ℕ) (v : ℕ) : (digits bs v).length = bs.length := by
  induction bs generalizing v with
  | nil => rfl
  | cons b bs ih => rw [digits, List.length_cons, List.length_cons, ih]

/-- The digits fit when each is below the base at its place. -/
lemma fit_iff : Fit bs ds ↔ ds.length ≤ bs.length ∧
    ∀ (i d b : ℕ), ds[i]? = some d → bs[i]? = some b → d < b := by
  induction bs generalizing ds with
  | nil => cases ds <;> simp [Fit]
  | cons b bs ih =>
    cases ds with
    | nil => simp [Fit]
    | cons d ds =>
      show d < b ∧ Fit bs ds ↔ _
      rw [ih, List.length_cons, List.length_cons, Nat.add_le_add_iff_right]
      constructor
      · rintro ⟨hd, hlen, hds⟩
        refine ⟨hlen, fun i => ?_⟩
        cases i with
        | zero =>
          intro x y hx hy
          obtain rfl := Option.some.inj hx
          obtain rfl := Option.some.inj hy
          exact hd
        | succ i => exact hds i
      · rintro ⟨hlen, hall⟩
        exact ⟨hall 0 d b rfl rfl, hlen, fun i => hall (i + 1)⟩

/-- The digits behind the first ones count in the bases behind the first ones. -/
lemma ofDigits_append (h : ds.length = bs.length) :
    ofDigits (bs ++ cs) (ds ++ es) = ofDigits bs ds * cs.prod + ofDigits cs es := by
  induction bs generalizing ds with
  | nil =>
    rw [List.length_nil, List.length_eq_zero_iff] at h
    rw [h, ofDigits, Nat.zero_mul, Nat.zero_add]
    rfl
  | cons b bs ih =>
    obtain ⟨d, ds, rfl⟩ := List.exists_cons_of_length_eq_add_one h
    have hlen : ds.length = bs.length := Nat.succ.inj h
    show d * (bs ++ cs).prod + ofDigits (bs ++ cs) (ds ++ es)
      = (d * bs.prod + ofDigits bs ds) * cs.prod + ofDigits cs es
    rw [ih hlen, List.prod_append]
    ring

/-- Bases without digits only scale the number. -/
lemma ofDigits_append_nil (cs : List ℕ) (h : ds.length = bs.length) :
    ofDigits (bs ++ cs) ds = ofDigits bs ds * cs.prod := by
  have happ : ofDigits (bs ++ cs) (ds ++ []) = ofDigits bs ds * cs.prod + ofDigits cs [] :=
    ofDigits_append h
  rwa [List.append_nil, ofDigits_nil, Nat.add_zero] at happ

/-- Horner's rule in one base. -/
lemma foldl_horner (b a : ℕ) (ds : List ℕ) :
    ds.foldl (fun a d => a * b + d) a
      = a * b ^ ds.length + ofDigits (List.replicate ds.length b) ds := by
  induction ds generalizing a with
  | nil => simp
  | cons d ds ih =>
    show ds.foldl (fun a d => a * b + d) (a * b + d)
      = a * b ^ (ds.length + 1) + (d * (List.replicate ds.length b).prod
        + ofDigits (List.replicate ds.length b) ds)
    rw [ih, List.prod_replicate]
    ring

/-- A numeral whose digits fit is below the product of its bases. -/
lemma ofDigits_lt (hpos : 0 < bs.prod) (h : Fit bs ds) : ofDigits bs ds < bs.prod := by
  induction bs generalizing ds with
  | nil => exact Nat.one_pos
  | cons b bs ih =>
    rw [List.prod_cons] at hpos ⊢
    cases ds with
    | nil => rwa [ofDigits_nil]
    | cons d ds =>
      obtain ⟨hd, hds⟩ := h
      have hrest : ofDigits bs ds < bs.prod := ih (Nat.pos_of_mul_pos_left hpos) hds
      show d * bs.prod + ofDigits bs ds < b * bs.prod
      calc d * bs.prod + ofDigits bs ds < d * bs.prod + bs.prod := by omega
        _ = (d + 1) * bs.prod := by ring
        _ ≤ b * bs.prod := Nat.mul_le_mul_right _ hd

/-- The digits of zero. -/
lemma digits_zero (bs : List ℕ) : digits bs 0 = List.replicate bs.length 0 := by
  induction bs with
  | nil => rfl
  | cons b bs ih => rw [digits, Nat.zero_div, Nat.zero_mod, ih, List.length_cons, List.replicate_succ]

/-- A numeral is taken apart into its digits and zeros for those that are missing. -/
theorem digits_ofDigits (hpos : 0 < bs.prod) (h : Fit bs ds) :
    digits bs (ofDigits bs ds) = ds ++ List.replicate (bs.length - ds.length) 0 := by
  induction bs generalizing ds with
  | nil =>
    cases ds with
    | nil => rfl
    | cons d ds => exact h.elim
  | cons b bs ih =>
    cases ds with
    | nil => rw [ofDigits_nil, digits_zero, List.nil_append, List.length_nil, Nat.sub_zero]
    | cons d ds =>
      obtain ⟨-, hds⟩ := h
      rw [List.prod_cons] at hpos
      have hprod : 0 < bs.prod := Nat.pos_of_mul_pos_left hpos
      have hlt : ofDigits bs ds < bs.prod := ofDigits_lt hprod hds
      -- the first digit is the quotient, the others denote the remainder
      have hdiv : (d * bs.prod + ofDigits bs ds) / bs.prod = d := by
        rw [Nat.add_comm, Nat.add_mul_div_right _ _ hprod, Nat.div_eq_of_lt hlt, Nat.zero_add]
      have hmod : (d * bs.prod + ofDigits bs ds) % bs.prod = ofDigits bs ds := by
        rw [Nat.add_comm, Nat.add_mul_mod_self_right, Nat.mod_eq_of_lt hlt]
      show (d * bs.prod + ofDigits bs ds) / bs.prod
          :: digits bs ((d * bs.prod + ofDigits bs ds) % bs.prod)
        = d :: ds ++ List.replicate (bs.length + 1 - (ds.length + 1)) 0
      rw [hdiv, hmod, ih hprod hds, Nat.add_sub_add_right]
      rfl

/-- The digits of a number below the product of the bases denote it. -/
theorem ofDigits_digits (h : v < bs.prod) : ofDigits bs (digits bs v) = v := by
  induction bs generalizing v with
  | nil =>
    rw [List.prod_nil] at h
    show 0 = v
    omega
  | cons b bs ih =>
    rw [List.prod_cons] at h
    have hprod : 0 < bs.prod := Nat.pos_of_lt_mul_left h
    show v / bs.prod * bs.prod + ofDigits bs (digits bs (v % bs.prod)) = v
    rw [ih (Nat.mod_lt v hprod)]
    exact Nat.div_add_mod' v bs.prod

/-- The digits of a number below the product of the bases fit. -/
lemma fit_digits (h : v < bs.prod) : Fit bs (digits bs v) := by
  induction bs generalizing v with
  | nil => trivial
  | cons b bs ih =>
    rw [List.prod_cons] at h
    have hprod : 0 < bs.prod := Nat.pos_of_lt_mul_left h
    exact ⟨(Nat.div_lt_iff_lt_mul hprod).mpr h, ih (Nat.mod_lt v hprod)⟩

/-- The digits in the last bases are those of the remainder by their product. -/
lemma digits_append (h : v < (bs ++ cs).prod) :
    digits (bs ++ cs) v = digits bs (v / cs.prod) ++ digits cs (v % cs.prod) := by
  induction bs generalizing v with
  | nil =>
    show digits cs v = digits cs (v % cs.prod)
    rw [List.nil_append] at h
    rw [Nat.mod_eq_of_lt h]
  | cons b bs ih =>
    rw [List.cons_append, List.prod_cons] at h
    have hprod : 0 < (bs ++ cs).prod := Nat.pos_of_lt_mul_left h
    have hsplit : (bs ++ cs).prod = cs.prod * bs.prod := by rw [List.prod_append, Nat.mul_comm]
    show v / (bs ++ cs).prod :: digits (bs ++ cs) (v % (bs ++ cs).prod)
      = v / cs.prod / bs.prod :: (digits bs (v / cs.prod % bs.prod) ++ digits cs (v % cs.prod))
    rw [ih (Nat.mod_lt v hprod), hsplit, Nat.div_div_eq_div_mul, Nat.mod_mul_right_div_self,
      Nat.mod_mul_right_mod]

/-- The lowest digit is the remainder by the lowest base. -/
lemma digits_append_singleton (h : v < (bs ++ [b]).prod) :
    digits (bs ++ [b]) v = digits bs (v / b) ++ [v % b] := by
  rw [digits_append h, List.prod_singleton]
  show _ ++ [v % b / 1] = _
  rw [Nat.div_one]

/-- The first digits of a numeral that fits. -/
lemma Fit.of_append (h : Fit bs (ds ++ es)) : Fit bs ds := by
  induction ds generalizing bs with
  | nil => cases bs <;> trivial
  | cons d ds ih =>
    cases bs with
    | nil => exact h.elim
    | cons b bs => exact ⟨h.1, ih h.2⟩

/-- Zeros at the low end do not count. -/
lemma ofDigits_append_zeros (bs ds : List ℕ) (n : ℕ) :
    ofDigits bs (ds ++ List.replicate n 0) = ofDigits bs ds := by
  induction bs generalizing ds n with
  | nil => rfl
  | cons b bs ih =>
    cases ds with
    | nil =>
      cases n with
      | zero => rfl
      | succ n =>
        have hrest := ih [] n
        rw [List.nil_append, ofDigits_nil] at hrest
        show 0 * bs.prod + ofDigits bs (List.replicate n 0) = 0
        rw [hrest, Nat.zero_mul]
    | cons d ds =>
      show d * bs.prod + ofDigits bs (ds ++ List.replicate n 0) = d * bs.prod + ofDigits bs ds
      rw [ih]

/-- Numerals with as many digits as bases are ordered as their digits are. -/
theorem ofDigits_lt_ofDigits_iff (hpos : 0 < bs.prod) (hds : Fit bs ds) (hes : Fit bs es)
    (hdlen : ds.length = bs.length) (helen : es.length = bs.length) :
    ofDigits bs ds < ofDigits bs es ↔ ds < es := by
  induction bs generalizing ds es with
  | nil =>
    rw [List.length_nil, List.length_eq_zero_iff] at hdlen helen
    rw [hdlen, helen]
    simp
  | cons b bs ih =>
    obtain ⟨d, ds, rfl⟩ := List.exists_cons_of_length_eq_add_one hdlen
    obtain ⟨e, es, rfl⟩ := List.exists_cons_of_length_eq_add_one helen
    rw [List.prod_cons] at hpos
    have hprod : 0 < bs.prod := Nat.pos_of_mul_pos_left hpos
    have hdlt : ofDigits bs ds < bs.prod := ofDigits_lt hprod hds.2
    have helt : ofDigits bs es < bs.prod := ofDigits_lt hprod hes.2
    have hrest := ih hprod hds.2 hes.2 (Nat.succ.inj hdlen) (Nat.succ.inj helen)
    show d * bs.prod + ofDigits bs ds < e * bs.prod + ofDigits bs es ↔ d :: ds < e :: es
    rw [List.cons_lt_cons_iff, ← hrest]
    -- a larger first digit outweighs the digits behind it
    have hover : ∀ x y p q : ℕ, x < y → p < bs.prod → x * bs.prod + p < y * bs.prod + q := by
      intro x y p q hxy hp
      calc x * bs.prod + p < x * bs.prod + bs.prod := by omega
        _ = (x + 1) * bs.prod := by ring
        _ ≤ y * bs.prod := Nat.mul_le_mul_right _ hxy
        _ ≤ y * bs.prod + q := Nat.le_add_right _ _
    rcases Nat.lt_trichotomy d e with hlt | rfl | hgt
    · have hfirst := hover d e _ (ofDigits bs es) hlt hdlt
      simp [hlt, hfirst]
    · simp
    · have hfirst := hover e d _ (ofDigits bs ds) hgt helt
      have hne : d ≠ e := by omega
      simp only [hne, false_and, or_false]
      omega

end MixedRadix
