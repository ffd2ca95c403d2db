import UosioCdt.Core.NameTheorems
import UosioCdt.Tools.Name

/-!
# The build tools and the contract runtime agree on names

`string_to_name`, `validate_name` and `name_to_string` of the tools against the constructor and
`to_string` of the runtime. They agree on every string and on every value but zero.
-/

namespace UosioCdt.Tools

open UosioCdt.Core MixedRadix

/-- The symbol of a character of the alphabet is its digit. -/
lemma charToSymbol_eq {c : Char} (h : c ∈ Name.charmap) :
    charToSymbol c = UInt64.ofNat (Name.charmap.idxOf c) := by
  have htable : ∀ c ∈ Name.charmap,
      charToSymbol c = UInt64.ofNat (Name.charmap.idxOf c) := by decide
  exact htable c h

/-- A digit put behind the digits of the value. -/
lemma toNat_or_digit {name : UInt64} {d k q : ℕ} (hd : d < 32) (hk : k + 5 ≤ 64)
    (hname : name.toNat = 2 ^ (k + 5) * q) :
    (name ||| (UInt64.ofNat d &&& 0x1f) <<< UInt64.ofNat k).toNat = name.toNat + d * 2 ^ k := by
  have hdigit : (UInt64.ofNat d &&& 0x1f).toNat = d := by
    rw [UInt64.toNat_and, UInt64.toNat_ofNat']
    show d % 2 ^ 64 &&& 2 ^ 5 - 1 = d
    rw [Nat.and_two_pow_sub_one_eq_mod]
    omega
  have hpos : d * 2 ^ k < 2 ^ (k + 5) := by
    rw [Nat.pow_add, Nat.mul_comm d]
    exact Nat.mul_lt_mul_of_pos_left hd (Nat.two_pow_pos k)
  have hle : 2 ^ (k + 5) ≤ 2 ^ 64 := Nat.pow_le_pow_right (by decide) hk
  have hshift : ((UInt64.ofNat d &&& 0x1f) <<< UInt64.ofNat k).toNat = d * 2 ^ k := by
    rw [UInt64.toNat_shiftLeft, hdigit, UInt64.toNat_ofNat', Nat.shiftLeft_eq,
      show k % 2 ^ 64 % 64 = k by omega, Nat.mod_eq_of_lt (by omega)]
  rw [UInt64.toNat_or, hshift, hname, ← Nat.two_pow_add_eq_or_of_lt hpos]

/-- The bases from a character before the last one on. -/
lemma drop_bases {i : ℕ} (hi : i < 12) :
    Name.bases.drop i = 32 :: Name.bases.drop (i + 1) ∧
      (Name.bases.drop (i + 1)).prod = 2 ^ (64 - 5 * (i + 1)) := by
  have htable : ∀ i < 12, Name.bases.drop i = 32 :: Name.bases.drop (i + 1) ∧
      (Name.bases.drop (i + 1)).prod = 2 ^ (64 - 5 * (i + 1)) := by decide
  exact htable i hi

/-- The loop of `string_to_name` at character `i`: the low bits are still empty. -/
lemma toNat_stringToNameFrom {i q : ℕ} {name : UInt64} {cs : Str} (hlen : i + cs.length ≤ 13)
    (hcs : ∀ c ∈ cs, c ∈ Name.charmap) (hfit : Fit (Name.bases.drop i) (Name.symbols cs))
    (hname : name.toNat = (Name.bases.drop i).prod * q) :
    (stringToNameFrom i name cs).toNat
      = name.toNat + ofDigits (Name.bases.drop i) (Name.symbols cs) := by
  induction cs generalizing i q name with
  | nil =>
    show name.toNat = name.toNat + ofDigits (Name.bases.drop i) []
    rw [ofDigits_nil, Nat.add_zero]
  | cons c cs ih =>
    rw [List.length_cons] at hlen
    have hc : c ∈ Name.charmap := hcs c List.mem_cons_self
    have hnul : c ≠ '\x00' := by
      rintro rfl
      exact absurd hc (by decide)
    rw [stringToNameFrom, if_neg hnul, charToSymbol_eq hc]
    rcases Nat.lt_or_ge i 12 with hi | hi
    · obtain ⟨hdrop, hprod⟩ := drop_bases hi
      rw [hdrop, List.prod_cons, hprod] at hname
      rw [hdrop] at hfit ⊢
      -- the digit goes in front of the empty bits
      have hor := toNat_or_digit (k := 64 - 5 * (i + 1)) (q := q) hfit.1 (by omega)
        (by rw [hname, Nat.pow_add]; ring)
      rw [if_pos hi]
      rw [ih (q := 32 * q + Name.charmap.idxOf c) (by omega)
        (fun d hd => hcs d (List.mem_cons_of_mem _ hd)) hfit.2 (by rw [hor, hname, hprod]; ring),
        hor, Nat.add_assoc, ← hprod]
      rfl
    · -- the thirteenth character is the last one
      obtain rfl : i = 12 := by omega
      obtain rfl : cs = [] := by
        rw [← List.length_eq_zero_iff]
        omega
      have hlast : Name.charmap.idxOf c < 2 ^ 4 := hfit.1
      have hdigit : (UInt64.ofNat (Name.charmap.idxOf c) &&& 0x0F).toNat = Name.charmap.idxOf c := by
        rw [UInt64.toNat_and, UInt64.toNat_ofNat']
        show Name.charmap.idxOf c % 2 ^ 64 &&& 2 ^ 4 - 1 = _
        rw [Nat.and_two_pow_sub_one_eq_mod]
        omega
      have hname16 : name.toNat = 2 ^ 4 * q := hname
      rw [if_neg (Nat.lt_irrefl 12), UInt64.toNat_or, hdigit, hname16,
        ← Nat.two_pow_add_eq_or_of_lt hlast]
      show _ = 2 ^ 4 * q + (Name.charmap.idxOf c * 1 + 0)
      omega

/-- `string_to_name` gives an accepted string the number of its name. -/
theorem stringToName_eq {s : Str} (h : Name.Accepted s) :
    stringToName s = UInt64.ofNat (ofDigits Name.bases (Name.symbols s)) := by
  have hfit : Fit Name.bases (Name.symbols s) := (Name.accepted_iff.mp h).2
  have hlen : 0 + s.length ≤ 13 := by
    have := h.1
    omega
  have hloop : (stringToNameFrom 0 0 s).toNat
      = (0 : UInt64).toNat + ofDigits Name.bases (Name.symbols s) :=
    toNat_stringToNameFrom (q := 0) hlen h.2.1 hfit rfl
  apply UInt64.toNat_inj.mp
  rw [UInt64.toNat_ofNat', Nat.mod_eq_of_lt h.ofDigits_lt, stringToName, hloop]
  exact Nat.zero_add _

/-! ## Writing a name -/

/-- The characters of five bits, read from the low end. -/
lemma nameCharsFrom_eq {n : ℕ} {tmp : UInt64} (htmp : tmp.toNat < 32 ^ n) (str : Str) :
    nameCharsFrom n tmp str = Name.chars (digits (List.replicate n 32) tmp.toNat) ++ str := by
  induction n generalizing tmp str with
  | zero => rfl
  | succ n ih =>
    have hshift : (tmp >>> 5).toNat = tmp.toNat / 32 := by
      rw [UInt64.toNat_shiftRight, Nat.shiftRight_eq_div_pow]
      rfl
    have hmask : (tmp &&& 0x1f).toNat = tmp.toNat % 32 := by
      rw [UInt64.toNat_and]
      exact Nat.and_two_pow_sub_one_eq_mod _ 5
    have hprod : (List.replicate n 32 ++ [32]).prod = 32 ^ (n + 1) := by
      rw [List.prod_append, List.prod_replicate, List.prod_singleton, Nat.pow_succ]
    rw [Nat.pow_succ] at htmp
    rw [nameCharsFrom, ih (by rw [hshift]; omega), hshift, List.replicate_succ',
      digits_append_singleton (by rw [hprod, Nat.pow_succ]; exact htmp)]
    show _ = List.map _ (_ ++ [tmp.toNat % 32]) ++ str
    rw [List.map_append, List.append_assoc, List.map_singleton, charAt, hmask]
    rfl

/-- The thirteen characters are the digits of the name. -/
lemma nameChars_eq (nm : UInt64) : nameChars nm = Name.chars (digits Name.bases nm.toNat) := by
  have hnm : nm.toNat < 2 ^ 64 := nm.toNat_lt
  have hshift : (nm >>> 4).toNat = nm.toNat / 16 := by
    rw [UInt64.toNat_shiftRight, Nat.shiftRight_eq_div_pow]
    rfl
  have hmask : (nm &&& 0x0f).toNat = nm.toNat % 16 := by
    rw [UInt64.toNat_and]
    exact Nat.and_two_pow_sub_one_eq_mod _ 4
  have hlt : nm.toNat < (List.replicate 12 32 ++ [16]).prod := by
    show _ < Name.bases.prod
    rwa [Name.prod_bases]
  rw [nameChars, nameCharsFrom_eq (by rw [hshift]; omega), hshift]
  show _ = Name.chars (digits (List.replicate 12 32 ++ [16]) nm.toNat)
  rw [digits_append_singleton hlt]
  show _ = List.map _ (_ ++ [nm.toNat % 16])
  rw [List.map_append, List.map_singleton, charAt, hmask]
  rfl

/-- Both sides trim a string of thirteen characters, except that the tools leave one of dots. -/
theorem trim_nameChars (nm : UInt64) : trim (nameChars nm) = Name.toString ⟨nm⟩ := by
  rw [nameChars_eq, Name.toString_eq]
  rfl

/-- The tools write a name as the runtime does, unless it is zero. -/
theorem nameToString_eq_iff (v : UInt64) : nameToString v = Name.toString ⟨v⟩ ↔ v ≠ 0 := by
  constructor
  · rintro h rfl
    exact absurd h (by decide)
  · intro hv
    -- only zero is written with dots alone
    have hsome : ¬ (nameChars v).all (· = '.') = true := by
      intro hall
      have hempty : trim (nameChars v) = [] := by
        rw [List.all_eq_true] at hall
        exact List.rdropWhile_eq_nil_iff.mpr hall
      have hname := Name.ofString_toString ⟨v⟩
      rw [← trim_nameChars, hempty] at hname
      have hzero : (⟨0⟩ : Name) = ⟨v⟩ := Except.ok.inj hname
      exact hv (congrArg Name.value hzero).symm
    rw [nameToString, trimRightDots, if_neg hsome, trim_nameChars]

/-- A string is valid when the runtime accepts it and it ends in no dot. -/
theorem validateName_iff (s : Str) :
    validateName s = true ↔ Name.Accepted s ∧ s.getLast? ≠ some '.' := by
  constructor
  · intro h
    have hback := trim_nameChars_of_valid h
    have hstring : Name.toString ⟨stringToName s⟩ = s := by rw [← trim_nameChars, hback]
    constructor
    · rw [← hstring]
      exact (Name.symbols_toString _).1
    · rw [← Name.trimDots_eq_self_iff]
      calc Name.trimDots s = Name.trimDots (trim (nameChars (stringToName s))) := by rw [hback]
        _ = trim (nameChars (stringToName s)) := List.rdropWhile_idempotent _ _
        _ = s := hback
  · rintro ⟨haccepted, hlast⟩
    have htrim : trim (nameChars (stringToName s)) = s := by
      rw [trim_nameChars, stringToName_eq haccepted, Name.toString_of_accepted haccepted,
        Name.trimDots_eq_self_iff.mpr hlast]
    rw [validateName, Bool.and_eq_true, decide_eq_true_eq, decide_eq_true_eq]
    exact ⟨haccepted.1, htrim⟩

/-! ## Agreement -/

/-- The tools and the runtime agree on every string and on its number, and on the string of exactly
the numbers other than zero. -/
theorem names_agree_iff (s : Str) (v : UInt64) :
    ((validateName s = true ↔ (∃ n, Name.ofString s = .ok n) ∧ s.getLast? ≠ some '.') ∧
      (∀ n, Name.ofString s = .ok n → stringToName s = n.value) ∧
      nameToString v = Name.toString ⟨v⟩) ↔ v ≠ 0 := by
  have hstring : validateName s = true ↔
      (∃ n, Name.ofString s = .ok n) ∧ s.getLast? ≠ some '.' := by
    rw [validateName_iff, Name.string_accepted_iff]
  have hnumber : ∀ n, Name.ofString s = .ok n → stringToName s = n.value := by
    intro n hs
    obtain ⟨haccepted, rfl⟩ := Name.ofString_ok_iff.mp hs
    exact stringToName_eq haccepted
  constructor
  · intro h
    exact (nameToString_eq_iff v).mp h.2.2
  · intro h
    exact ⟨hstring, hnumber, (nameToString_eq_iff v).mpr h⟩

/-- The tools write the name zero with thirteen dots, the runtime with none. -/
theorem exists_names_disagree :
    ¬ ((∀ s, validateName s = true ↔ (∃ n, Name.ofString s = .ok n) ∧ s.getLast? ≠ some '.') ∧
      (∀ s n, Name.ofString s = .ok n → stringToName s = n.value) ∧
      ∀ v, nameToString v = Name.toString ⟨v⟩) := by
  rintro ⟨-, -, h⟩
  exact absurd (h 0) (by decide)

end UosioCdt.Tools
