import UosioCdt.Tools.Abi
import Mathlib.Data.List.Basic

/-!
# `abigen::to_json`

Which of the collected definitions go into the ABI document. Structs and typedefs that no scan finds
a reference to are left out.
-/

namespace UosioCdt.Tools

/-! ## Types -/

/-- The table of `_translate_type`. -/
def translationTable : List (String × String) := [
  ("unsigned __int128", "uint128"), ("__int128", "int128"), ("uint128_t", "uint128"),
  ("int128_t", "int128"),
  ("unsigned long long", "uint64"), ("long long", "int64"), ("uint64_t", "uint64"),
  ("int64_t", "int64"),
  ("unsigned long", "uint32"), ("long", "int32"), ("unsigned int", "uint32"), ("int", "int32"),
  ("uint32_t", "uint32"), ("int32_t", "int32"),
  ("unsigned short", "uint16"), ("short", "int16"), ("uint16_t", "uint16"), ("int16_t", "int16"),
  ("unsigned char", "uint8"), ("signed char", "int8"), ("char", "int8"), ("uint8_t", "uint8"),
  ("int8_t", "int8"), ("_Bool", "bool"),
  ("float", "float32"), ("double", "float64"), ("long double", "float128"),
  ("unsigned_int", "varuint32"), ("signed_int", "varint32"),
  ("block_timestamp", "block_timestamp_type"), ("capi_name", "name"),
  ("capi_public_key", "public_key"), ("capi_signature", "signature"),
  ("capi_checksum160", "checksum160"), ("capi_checksum256", "checksum256"),
  ("capi_checksum512", "checksum512"), ("fixed_bytes_20", "checksum160"),
  ("fixed_bytes_32", "checksum256"), ("fixed_bytes_64", "checksum512")]

/-- `_translate_type` -/
def translateType (t : String) : String := (translationTable.lookup t).getD t

def builtins : List String := ["bool", "int8", "uint8", "int16", "uint16", "int32", "uint32", "int64",
  "uint64", "int128", "uint128", "varint32", "varuint32", "float32", "float64", "float128",
  "time_point", "time_point_sec", "name", "bytes", "string", "block_timestamp_type", "checksum160",
  "checksum256", "checksum512", "public_key", "signature", "symbol", "symbol_code", "asset",
  "extended_asset"]

/-- `is_builtin_type` -/
def isBuiltinType (t : String) : Bool := builtins.contains (translateType t)

/-- The characters of the suffixes `[]`, `?` and `$`. -/
def isSuffixChar (c : Char) : Bool := c = '[' || c = ']' || c = '?' || c = '$'

/-- `remove_suffix` -/
def removeSuffix (name : String) : String :=
  String.ofList (name.toList.reverse.dropWhile isSuffixChar).reverse

/-! ## The collected definitions -/

/-- The members `_abi` and `ctables` of `abigen`. -/
structure AbiGen where
  version : AbiVersion
  structs : List AbiStruct
  typedefs : List AbiTypedef
  actions : List AbiAction
  tables : List AbiTable
  variants : List AbiVariant
  ricardianClauses : List AbiRicardianClausePair
  ctables : List AbiTable

namespace AbiGen

variable (g : AbiGen)

/-- `insert` of a `std::set<abi_table>`, which is ordered by name. -/
def insertTable : List AbiTable → AbiTable → List AbiTable
  | [], t => [t]
  | u :: us, t =>
    if t.name < u.name then t :: u :: us
    else if u.name < t.name then u :: insertTable us t
    else u :: us

/-- The loop over `_abi.tables`: whether a table has the type of `t`. Those before it are inserted. -/
def multiIndexLoop (t : AbiTable) : List AbiTable → List AbiTable → Bool × List AbiTable
  | [], setOfTables => (false, setOfTables)
  | u :: us, setOfTables =>
    if t.type = u.type then (true, setOfTables)
    else multiIndexLoop t us (insertTable setOfTables u)

/-- `set_of_tables` -/
def setOfTables : List AbiTable :=
  let declared := g.ctables.foldl (fun set t =>
    let (hasMultiIndex, set) := multiIndexLoop t g.tables set
    if ¬ hasMultiIndex then insertTable set t else set) []
  g.tables.foldl insertTable declared

/-- `validate_struct` -/
def validateStruct (as : AbiStruct) : Bool :=
  if isBuiltinType (translateType as.name) then false
  else
    (g.structs.any fun s =>
      (s.fields.any fun f => as.name == translateType (removeSuffix f.type)) ||
      (g.variants.any fun v => v.types.any fun vt => as.name == translateType (removeSuffix vt)) ||
      s.base == as.name) ||
    (g.actions.any fun a => as.name == translateType a.type) ||
    (g.setOfTables.any fun t => as.name == translateType t.type) ||
    (g.typedefs.any fun td => as.name == translateType (removeSuffix td.type))

/-- `validate_types` -/
def validateTypes (td : AbiTypedef) : Bool :=
  (g.structs.any fun as => g.validateStruct as &&
    as.fields.any fun f => removeSuffix f.type == td.newTypeName) ||
  (g.tables.any fun t => t.type == td.newTypeName) ||
  (g.actions.any fun a => a.type == td.newTypeName) ||
  (g.typedefs.any fun td' => removeSuffix td'.type == td.newTypeName)

/-- `table_to_json` -/
def tableToJson (t : AbiTable) : AbiTable := ⟨t.name, t.type, "i64", [], []⟩

/-- `to_json`. The other definitions are copied field by field. -/
def toJson : Abi where
  version := g.version
  structs := g.structs.filter g.validateStruct
  types := g.typedefs.filter g.validateTypes
  actions := g.actions
  tables := g.setOfTables.map tableToJson
  ricardianClauses := g.ricardianClauses
  variants := g.variants

/-- All collected definitions. -/
def collected : Abi where
  version := g.version
  structs := g.structs
  types := g.typedefs
  actions := g.actions
  tables := g.tables ++ g.ctables
  ricardianClauses := g.ricardianClauses
  variants := g.variants

end AbiGen

/-! ## Closed ABIs -/

namespace Abi

/-- The type names that the definitions use. -/
def uses (a : Abi) : List String :=
  a.structs.flatMap (fun s => s.fields.map AbiField.type) ++
    (a.structs.map AbiStruct.base).filter (fun base => base ≠ "") ++
    a.types.map AbiTypedef.type ++ a.variants.flatMap AbiVariant.types ++
    a.actions.map AbiAction.type ++ a.tables.map AbiTable.type

/-- The name is a builtin or is defined. -/
def Knows (a : Abi) (r : String) : Prop :=
  isBuiltinType r = true ∨ r ∈ a.types.map AbiTypedef.newTypeName ∨
    r ∈ a.structs.map AbiStruct.name ∨ r ∈ a.variants.map AbiVariant.name

instance (a : Abi) (r : String) : Decidable (a.Knows r) := by
  unfold Knows
  infer_instance

/-- Every name that is used is a builtin or defined, after its suffixes are taken off. -/
def Closed (a : Abi) : Prop := ∀ x ∈ a.uses, a.Knows (removeSuffix x)

instance (a : Abi) : Decidable a.Closed := List.decidableBAll _ _

end Abi

end UosioCdt.Tools
