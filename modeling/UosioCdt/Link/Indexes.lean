import UosioCdt.Dispatch.MarkLive
import UosioCdt.Lib.Interning

/-!
# The index spaces of a linked contract

`assignIndexes` numbers the functions and globals that stay, and gives every function whose address
is taken a slot of the table; `calculateTypes` collects the signatures. The relocations of the object
files are later set to these numbers.
-/

namespace UosioCdt.Link

open Dispatch Gc Interning

/-- `WasmSignature` -/
structure WasmSignature where
  paramTypes : List UInt8
  returnType : UInt8
deriving DecidableEq

/-- An object file with what `assignIndexes` and `calculateTypes` read besides the functions and the
segments. -/
structure TypedFile (σ κ γ : Type) extends linked : Gc.ObjFile σ κ where
  customSections : List κ
  globals : List γ
  types : List WasmSignature

/-- The function that a symbol stands for: an `InputFunction` or, when it is not defined, its
symbol. -/
def functionOf {σ κ γ : Type} (link : Gc.Link σ κ γ) (sym : σ) : κ ⊕ σ :=
  match link.kind sym with
  | .definedFunction func => .inl func
  | _ => .inr sym

/-- The linker when `assignIndexes` runs. What `functionOf` gives has an index, a table index and a
signature. -/
structure Input (σ κ γ : Type) where
  link : Gc.Link σ κ γ
  files : List (TypedFile σ κ γ)
  syntheticGlobals : List γ
  signature : κ ⊕ σ → WasmSignature
  /-- The table indices from `handleWeakUndefines`. -/
  tableIndex : κ ⊕ σ → Option ℕ
  files_eq : files.map (·.linked) = link.objectFiles
  symbols_nodup : link.symbols.Nodup
  functions_nodup : link.definedFunctions.Nodup
  globals_nodup : (syntheticGlobals ++ files.flatMap (·.globals)).Nodup
  tableIndex_eq : ∀ sym, link.tableIndex sym = tableIndex (functionOf link sym)
  tableIndex_eq_zero : ∀ func i, tableIndex func = some i → i = 0

/-- `kInitialTableOffset` -/
def kInitialTableOffset : ℕ := 1

namespace Input

variable {σ κ γ : Type} (I : Input σ κ γ)

def target (sym : σ) : κ ⊕ σ := functionOf I.link sym

variable [DecidableEq σ] [DecidableEq κ] [DecidableEq γ]

/-! ## Globals -/

/-- `calculateImports` gives the symbol an index among the imported globals. -/
def isImportedGlobal (sym : σ) : Bool :=
  (match I.link.kind sym with
    | .undefinedGlobal => true
    | _ => false) &&
  !I.link.isWeak sym && I.link.markLive.live.contains (I.link.liveFlag sym) &&
    I.link.isUsedInRegularObj sym

/-- The part of `calculateImports` for the globals; the counter is `NumImportedGlobals`. -/
def importGlobals : Gc.Link.Indexes σ :=
  I.link.symbols.foldl (fun st sym => if I.isImportedGlobal sym then st.assign sym else st)
    ⟨0, fun _ => none⟩

/-- `Global->Live` -/
def globalLive (global : γ) : Bool := I.link.markLive.live.contains (.globalLive global)

/-- The globals of `assignIndexes`: the synthetic ones, then those of the object files. -/
def definedGlobals : List γ := I.syntheticGlobals ++ I.files.flatMap (·.globals)

/-- The part of `assignIndexes` that numbers the globals. -/
def assignGlobals : Gc.Link.Indexes γ :=
  I.definedGlobals.foldl (fun st global => if I.globalLive global then st.assign global else st)
    ⟨I.importGlobals.counter, fun _ => none⟩

/-- `GlobalSymbol::getGlobalIndex`; it asserts that there is one. -/
def getGlobalIndex (sym : σ) : Option UInt32 :=
  match I.link.kind sym with
  | .definedGlobal global => I.assignGlobals.index global
  | _ => I.importGlobals.index sym

/-- The global that a symbol stands for. -/
def targetGlobal (sym : σ) : σ ⊕ γ :=
  match I.link.kind sym with
  | .definedGlobal global => .inr global
  | _ => .inl sym

/-! ## `HandleRelocs` -/

/-- What `HandleRelocs` changes: the table indices and the next one, `IndirectFunctions`, `Types`, and
the `TypeMap` of every object file. `TypeIndices` is a search in `Types`, and `TypeIsUsed` is where
`TypeMap` has a value. -/
structure State (σ κ : Type) where
  tableIndex : κ ⊕ σ → Option ℕ
  nextIndex : ℕ
  indirectFunctions : List σ
  types : List WasmSignature
  typeMap : ℕ → ℕ → Option ℕ

def initial : State σ κ := ⟨I.tableIndex, kInitialTableOffset, [], [], fun _ _ => none⟩

/-- The case of a table index. -/
def addIndirect (st : State σ κ) (sym : σ) : State σ κ :=
  if (st.tableIndex (I.target sym)).isSome || (I.link.getFunctionIndex sym).isNone then st
  else { st with
    tableIndex := Function.update st.tableIndex (I.target sym) (some st.nextIndex)
    nextIndex := st.nextIndex + 1
    indirectFunctions := st.indirectFunctions ++ [sym] }

/-- `File->TypeMap[index] = registerType(Types[index])`, with the number of the file. -/
def mapType (st : State σ κ) (file index : ℕ) (sig : WasmSignature) : State σ κ :=
  let types := intern st.types sig
  { st with
    types := types
    typeMap := Function.update st.typeMap file
      (Function.update (st.typeMap file) index (some (types.idxOf sig))) }

/-- The body of the loop of `HandleRelocs`. -/
def handleReloc (n : ℕ) (file : TypedFile σ κ γ) (chunk : κ) (st : State σ κ)
    (reloc : Gc.WasmRelocation) : State σ κ :=
  match reloc.type with
  | .tableIndexI32 | .tableIndexSleb => I.addIndirect st (I.link.getSymbol chunk reloc.index)
  | .typeIndexLeb =>
    match file.types[reloc.index]? with
    | some sig => mapType st n reloc.index sig
    | none => st -- past the end of the vector
  | _ => st

/-- `HandleRelocs` -/
def handleRelocs (n : ℕ) (file : TypedFile σ κ γ) (st : State σ κ) (chunk : κ) : State σ κ :=
  if I.link.live chunk then (I.link.relocations chunk).foldl (I.handleReloc n file chunk) st else st

/-- The chunks of an object file in the order of the loops. -/
def fileChunks (file : TypedFile σ κ γ) : List κ :=
  file.functions.map (·.2) ++ file.segments ++ file.customSections

/-- The loop over the object files. -/
def handleFiles : State σ κ :=
  I.files.zipIdx.foldl (fun st file => (fileChunks file.1).foldl (I.handleRelocs file.2 file.1) st)
    I.initial

/-! ## `calculateTypes` -/

/-- `ImportedSymbols`, the functions. -/
def importedFunctions : List σ := I.link.symbols.filter I.link.isImportedFunction

/-- `InputFunctions` -/
def inputFunctions : List κ := I.link.definedFunctions.filter I.link.live

/-- The types that a file uses are registered once more. -/
def fileTypes (n : ℕ) (file : TypedFile σ κ γ) (st : State σ κ) : State σ κ :=
  file.types.zipIdx.foldl
    (fun st sig => if (st.typeMap n sig.2).isSome then mapType st n sig.2 sig.1 else st) st

def calculateTypes : State σ κ :=
  let st := I.files.zipIdx.foldl (fun st file => fileTypes file.2 file.1 st) I.handleFiles
  { st with
    types := internAll st.types (I.importedFunctions.map (fun sym => I.signature (.inr sym)) ++
      I.inputFunctions.map fun func => I.signature (.inl func)) }

/-- `FunctionSymbol::getTableIndex`; it asserts that there is one. -/
def getTableIndex (sym : σ) : Option ℕ := I.calculateTypes.tableIndex (I.target sym)

/-- `TypeMap[index]` of the `n`-th object file. -/
def typeMap (n index : ℕ) : Option ℕ := I.calculateTypes.typeMap n index

/-! ## The sections -/

/-- `lookupType`; it is an error when there is none. -/
def lookupType (sig : WasmSignature) : Option ℕ :=
  if sig ∈ I.calculateTypes.types then some (I.calculateTypes.types.idxOf sig) else none

/-- The functions with the types that the import section and the function section give them: what is
imported, and then what is defined. -/
def functionSection : List ((κ ⊕ σ) × Option ℕ) :=
  I.importedFunctions.map (fun sym => (.inr sym, I.lookupType (I.signature (.inr sym)))) ++
    I.inputFunctions.map fun func => (.inl func, I.lookupType (I.signature (.inl func)))

/-- `createElemSection`: the functions from the slot `kInitialTableOffset` on. -/
def elemSection : List (Option UInt32) :=
  I.calculateTypes.indirectFunctions.map I.link.getFunctionIndex

/-- The globals in their order: what is imported, and then `InputGlobals`. -/
def globalSection : List (σ ⊕ γ) :=
  (I.link.symbols.filter I.isImportedGlobal).map .inl ++ (I.definedGlobals.filter I.globalLive).map .inr

/-! ## Calls in the output -/

/-- The slots of the table when the module starts. -/
def table : List (Option UInt32) := List.replicate kInitialTableOffset none ++ I.elemSection

/-- The function that `call` runs. -/
def call (i : UInt32) : Option (κ ⊕ σ) := I.functionSection[i.toNat]?.map Prod.fst

/-- The function that `call_indirect` runs. It traps when the slot is empty or the function in it has
another type. -/
def callIndirect (slot type : ℕ) : Option (κ ⊕ σ) := do
  let i ← (I.table[slot]?).join
  let (func, index) ← I.functionSection[i.toNat]?
  let actual ← I.calculateTypes.types[← index]?
  let expected ← I.calculateTypes.types[type]?
  if actual = expected then some func else none

end Input

end UosioCdt.Link
