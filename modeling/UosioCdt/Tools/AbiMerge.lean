import UosioCdt.Lib.KeyedMerge
import UosioCdt.Tools.Abi

/-!
# `ABIMerger`

How the linker merges the ABIs of the object files: `abimerge.hpp`, and `writeABI` of the WebAssembly
writer.
-/

namespace UosioCdt.Tools

open KeyedMerge

/-! ## When two definitions are the same -/

/-- `struct_is_same` -/
def structIsSame (a b : AbiStruct) : Bool :=
  let sameFields := a.fields.length == b.fields.length
  (a.fields.all fun aField => b.fields.any fun bField =>
    aField.name == bField.name && aField.type == bField.type) &&
    (a.name == b.name && a.base == b.base && sameFields)

/-- `type_is_same` -/
def typeIsSame (a b : AbiTypedef) : Bool := a.newTypeName == b.newTypeName && a.type == b.type

/-- `action_is_same` -/
def actionIsSame (a b : AbiAction) : Bool :=
  a.name == b.name && a.type == b.type && a.ricardianContract == b.ricardianContract

/-- `variant_is_same` -/
def variantIsSame (a b : AbiVariant) : Bool :=
  (a.types.all fun tya => b.types.any fun tyb => tyb == tya) && a.name == b.name

/-- `table_is_same` -/
def tableIsSame (a b : AbiTable) : Bool :=
  a.name == b.name && a.type == b.type && a.indexType == b.indexType && a.keyNames == b.keyNames &&
    a.keyTypes == b.keyTypes

/-- `clause_is_same` -/
def clauseIsSame (a b : AbiRicardianClausePair) : Bool := a.id == b.id && a.body == b.body

/-! ## The merge -/

section addObject

variable {α : Type} (id : α → String) (isSame : α → α → Bool)

/-- The inner loop of `add_object`, with `should_skip`. -/
def shouldSkip (objB : α) : Bool → List α → Except String Bool
  | skip, [] => .ok skip
  | skip, objA :: rest =>
    if id objA = id objB then
      if ¬ isSame objA objB then
        .error ("Error, ABI structs malformed : " ++ id objA ++ " already defined")
      else shouldSkip objB true rest
    else shouldSkip objB skip rest

/-- The loop of `add_object` over the definitions of `b`. -/
def addLoop (a : List α) : List α → List α → Except String (List α)
  | ret, [] => .ok ret
  | ret, objB :: rest => do
    let skip ← shouldSkip id isSame objB false a
    addLoop a (if skip then ret else ret ++ [objB]) rest

/-- `add_object` -/
def addObject (a b : List α) : Except String (List α) := addLoop id isSame a a b

end addObject

namespace Abi

/-- `merge_version` -/
def mergeVersion (a b : Abi) : AbiVersion :=
  if a.version.number < b.version.number then b.version else a.version

/-- `merge_structs` -/
def mergeStructs (a b : Abi) : Except String (List AbiStruct) :=
  addObject AbiStruct.name structIsSame a.structs b.structs

/-- `merge_types` -/
def mergeTypes (a b : Abi) : Except String (List AbiTypedef) :=
  addObject AbiTypedef.newTypeName typeIsSame a.types b.types

/-- `merge_variants` -/
def mergeVariants (a b : Abi) : Except String (List AbiVariant) :=
  addObject AbiVariant.name variantIsSame a.variants b.variants

/-- `merge_actions` -/
def mergeActions (a b : Abi) : Except String (List AbiAction) :=
  addObject AbiAction.name actionIsSame a.actions b.actions

/-- `merge_tables` -/
def mergeTables (a b : Abi) : Except String (List AbiTable) :=
  addObject AbiTable.name tableIsSame a.tables b.tables

/-- `merge_clauses` -/
def mergeClauses (a b : Abi) : Except String (List AbiRicardianClausePair) :=
  addObject AbiRicardianClausePair.id clauseIsSame a.ricardianClauses b.ricardianClauses

/-- `ABIMerger(a).merge(b)` -/
def merge (a b : Abi) : Except String Abi := do
  let version := mergeVersion a b
  let types ← mergeTypes a b
  let structs ← mergeStructs a b
  let actions ← mergeActions a b
  let tables ← mergeTables a b
  let ricardianClauses ← mergeClauses a b
  let variants ← mergeVariants a b
  return { version, types, structs, actions, tables, ricardianClauses, variants }

/-- The loop of `writeABI`. -/
def mergeAll (a : Abi) : List Abi → Except String Abi
  | [] => .ok a
  | b :: bs => do
    let a ← a.merge b
    mergeAll a bs

end Abi

/-- `writeABI`: the merger starts with the last ABI, and merges every one. -/
def writeAbi (abis : List Abi) : Option (Except String Abi) :=
  abis.getLast?.map fun last => last.mergeAll abis

/-! ## The sections -/

/-- A section of an ABI: its definitions, what names them, and when two of them are the same. -/
structure Section where
  Obj : Type
  objs : Abi → List Obj
  ident : Obj → String
  isSame : Obj → Obj → Bool

namespace Section

def types : Section := ⟨_, Abi.types, AbiTypedef.newTypeName, typeIsSame⟩

def structs : Section := ⟨_, Abi.structs, AbiStruct.name, structIsSame⟩

def actions : Section := ⟨_, Abi.actions, AbiAction.name, actionIsSame⟩

def tables : Section := ⟨_, Abi.tables, AbiTable.name, tableIsSame⟩

def clauses : Section :=
  ⟨_, Abi.ricardianClauses, AbiRicardianClausePair.id, clauseIsSame⟩

def variants : Section := ⟨_, Abi.variants, AbiVariant.name, variantIsSame⟩

def all : List Section := [types, structs, actions, tables, clauses, variants]

/-- The merge of the section is not refused. -/
def Mergeable (sec : Section) (a b : Abi) : Prop :=
  Accepts sec.ident (fun x y => sec.isSame x y) (sec.objs a) (sec.objs b)

end Section

end UosioCdt.Tools
