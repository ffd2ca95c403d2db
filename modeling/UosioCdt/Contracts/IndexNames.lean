import UosioCdt.Core.NameSuffixTheorems

/-!
# The tables of secondary indices

A secondary index is stored under the name of its table with the number of the index in the lowest
four bits. `validate_table_name` leaves these bits free (`validateTableName_iff`), so no two indices
share a table (`indexTableName_eq_iff`).
-/

namespace UosioCdt.Contracts

open UosioCdt.Core

/-! ## Names -/

/-- `validate_table_name` -/
def validateTableName (n : Name) : Bool := n.length < 13

/-- The name of a `multi_index`, which its `static_assert` lets through. -/
structure TableName where
  name : Name
  valid : validateTableName name = true

/-- `index_table_name` -/
def indexTableName (tableName : Name) (number : UInt64) : UInt64 :=
  (tableName.value &&& 0xFFFFFFFFFFFFFFF0) ||| (number &&& 0x000000000000000F)

/-! ## Valid names -/

/-- The thirteenth character is in the lowest four bits. -/
lemma getLast?_chars (n : Name) :
    (Name.chars (MixedRadix.digits Name.bases n.value.toNat)).getLast? = some '.' ↔
      n.value.toNat % 16 = 0 := by
  have hlt : n.value.toNat < (List.replicate 12 32 ++ [16]).prod := Name.toNat_lt_prod n.value
  have hdigit : n.value.toNat % 16 < 32 := by omega
  have hdigits : MixedRadix.digits Name.bases n.value.toNat
      = MixedRadix.digits (List.replicate 12 32) (n.value.toNat / 16) ++ [n.value.toNat % 16] :=
    MixedRadix.digits_append_singleton hlt
  rw [hdigits, Name.chars, List.map_append, List.map_singleton, List.getLast?_concat,
    Option.some_inj, Name.getD_charmap_eq_dot_iff hdigit]

/-- A name has no more than twelve characters exactly if the lowest four bits are free. -/
theorem validateTableName_iff (n : Name) :
    validateTableName n = true ↔ n.value.toNat % 16 = 0 := by
  have hlength : validateTableName n = true ↔ n.toString.length < 13 := by
    rw [← n.length_eq, validateTableName, decide_eq_true_iff, UInt8.lt_iff_toNat_lt]
    rfl
  rw [hlength, n.toString_eq, ← getLast?_chars n]
  set str := Name.chars (MixedRadix.digits Name.bases n.value.toNat) with hstr
  have hlen : str.length = 13 := by
    rw [hstr, Name.chars, List.length_map, MixedRadix.length_digits]
    rfl
  obtain ⟨k, hk⟩ := Name.exists_trimDots str
  have hsum := congrArg List.length hk
  rw [List.length_append, List.length_replicate, hlen] at hsum
  constructor
  · intro hshort
    by_contra hlast
    rw [Name.trimDots_eq_self_iff.mpr hlast] at hshort
    omega
  · intro hlast
    have hne : Name.trimDots str ≠ str := fun heq => Name.trimDots_eq_self_iff.mp heq hlast
    have hk0 : k ≠ 0 := by
      rintro rfl
      exact hne (by simpa using hk.symm)
    omega

/-! ## Index tables -/

/-- The name of the table above the number. -/
lemma toNat_indexTableName (tableName : Name) (number : UInt64) :
    (indexTableName tableName number).toNat
      = tableName.value.toNat / 16 * 16 + number.toNat % 16 := by
  have hlt := tableName.value.toNat_lt
  have hlow : (number &&& 0x000000000000000F).toNat = number.toNat % 16 :=
    (Name.toNat_and_low number).2
  have hhigh : (tableName.value &&& 0xFFFFFFFFFFFFFFF0).toNat
      = (tableName.value.toNat / 16) <<< 4 := by
    rw [UInt64.toNat_and, Nat.shiftLeft_eq]
    show tableName.value.toNat &&& (2 ^ (60 + 4) - 16) = _
    rw [Name.and_mask, Nat.mod_eq_of_lt (by omega)]
  rw [indexTableName, UInt64.toNat_or, hlow, hhigh,
    ← Nat.shiftLeft_add_eq_or_of_lt (Nat.mod_lt _ (by decide)), Nat.shiftLeft_eq]

/-- The tables with secondary indices, by their names. -/
abbrev IndexTables (β : Type) := UInt64 → List β

/-- For valid tables and numbers below 16: two indices share a table only when they are the same
index, the first index is under the name of its table, and what is stored in one index leaves every
other one alone. -/
theorem indexTableName_eq_iff {t t' : TableName} {i j : UInt64} (hi : i < 16) (hj : j < 16) :
    (indexTableName t.name i = indexTableName t'.name j ↔ t.name = t'.name ∧ i = j) ∧
    indexTableName t.name 0 = t.name.value ∧
    (¬ (t.name = t'.name ∧ i = j) → ∀ {β : Type} (tables : IndexTables β) (entries : List β),
      Function.update tables (indexTableName t.name i) entries (indexTableName t'.name j)
        = tables (indexTableName t'.name j)) := by
  have ht := (validateTableName_iff t.name).mp t.valid
  have ht' := (validateTableName_iff t'.name).mp t'.valid
  have hi16 : i.toNat < 16 := hi
  have hj16 : j.toNat < 16 := hj
  have hiff : indexTableName t.name i = indexTableName t'.name j ↔ t.name = t'.name ∧ i = j := by
    rw [← UInt64.toNat_inj, toNat_indexTableName, toNat_indexTableName]
    constructor
    · intro heq
      have hvalue : t.name.value = t'.name.value := UInt64.toNat_inj.mp (by omega)
      exact ⟨congrArg Name.mk hvalue, UInt64.toNat_inj.mp (by omega)⟩
    · rintro ⟨hname, rfl⟩
      rw [hname]
  refine ⟨hiff, ?_, fun hother β tables entries => ?_⟩
  · rw [← UInt64.toNat_inj, toNat_indexTableName]
    show _ + 0 % 16 = _
    omega
  · exact Function.update_of_ne (fun heq => hother (hiff.mp heq.symm)) entries tables

/-- The indices 0 and 15 of the tables `a` and `b`. -/
theorem indexTableName_eq_iff_ab :
    let a : TableName := ⟨⟨0x3000000000000000⟩, by decide⟩
    let b : TableName := ⟨⟨0x3800000000000000⟩, by decide⟩
    (indexTableName a.name 0 = indexTableName b.name 15 ↔ a.name = b.name ∧ (0 : UInt64) = 15) ∧
    indexTableName a.name 0 = a.name.value ∧
    (¬ (a.name = b.name ∧ (0 : UInt64) = 15) →
      ∀ {β : Type} (tables : IndexTables β) (entries : List β),
        Function.update tables (indexTableName a.name 0) entries (indexTableName b.name 15)
          = tables (indexTableName b.name 15)) :=
  indexTableName_eq_iff (by decide) (by decide)

end UosioCdt.Contracts
