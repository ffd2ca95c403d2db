import Mathlib.Algebra.Group.Nat.Defs
import Mathlib.Tactic.Lemma

/-!
# ABI documents

The records of `abi.hpp`, and the JSON document whose sections are lists of them.
-/

namespace UosioCdt.Tools

/-- `abi_typedef` -/
structure AbiTypedef where
  newTypeName : String
  type : String
deriving DecidableEq, Repr

/-- `abi_field` -/
structure AbiField where
  name : String
  type : String
deriving DecidableEq, Repr

/-- `abi_struct` -/
structure AbiStruct where
  name : String
  base : String
  fields : List AbiField
deriving DecidableEq, Repr

/-- `abi_action` -/
structure AbiAction where
  name : String
  type : String
  ricardianContract : String
deriving DecidableEq, Repr

/-- `abi_table` -/
structure AbiTable where
  name : String
  type : String
  indexType : String
  keyNames : List String
  keyTypes : List String
deriving DecidableEq, Repr

/-- `abi_ricardian_clause_pair` -/
structure AbiRicardianClausePair where
  id : String
  body : String
deriving DecidableEq, Repr

/-- `abi_variant` -/
structure AbiVariant where
  name : String
  types : List String
deriving DecidableEq, Repr

/-- The version text `uosio::abi/d.e`. -/
structure AbiVersion where
  major : Fin 10
  minor : Fin 10
deriving DecidableEq, Repr

/-- The version that an `abi` starts with. -/
def AbiVersion.initial : AbiVersion := ⟨1, 1⟩

/-- `std::stod` of the last three characters, times ten. The product of these doubles is exact. -/
def AbiVersion.number (v : AbiVersion) : ℕ := v.major * 10 + v.minor

/-- An ABI document. -/
structure Abi where
  version : AbiVersion
  types : List AbiTypedef
  structs : List AbiStruct
  actions : List AbiAction
  tables : List AbiTable
  ricardianClauses : List AbiRicardianClausePair
  variants : List AbiVariant
deriving DecidableEq, Repr

lemma AbiVersion.number_inj {v w : AbiVersion} (h : v.number = w.number) : v = w := by
  obtain ⟨a, b⟩ := v
  obtain ⟨c, d⟩ := w
  unfold AbiVersion.number at h
  simp only at h
  have hb := b.isLt
  have hd := d.isLt
  obtain rfl : a = c := Fin.ext (by omega)
  obtain rfl : b = d := Fin.ext (by omega)
  rfl

/-- The names are unique within every section. -/
structure Abi.WellFormed (a : Abi) : Prop where
  types : (a.types.map AbiTypedef.newTypeName).Nodup
  structs : (a.structs.map AbiStruct.name).Nodup
  actions : (a.actions.map AbiAction.name).Nodup
  tables : (a.tables.map AbiTable.name).Nodup
  ricardianClauses : (a.ricardianClauses.map AbiRicardianClausePair.id).Nodup
  variants : (a.variants.map AbiVariant.name).Nodup

end UosioCdt.Tools
