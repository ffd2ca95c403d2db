import UosioCdt.Dispatch.Writer
import UosioCdt.Lib.Marking

/-!
# `markLive` and `assignIndexes` — garbage collection before the dispatcher is written

`MarkLive.cpp` marks the functions, segments and globals that stay in the output, starting from a
list of root symbols; `Writer::assignIndexes` then numbers the functions that are marked. Symbols,
chunks and globals are known by their identity (`σ`, `κ` and `γ`), as the pointers of the source.
-/

namespace UosioCdt.Dispatch.Gc

open Marking Tools

/-! ## Symbols, chunks and object files -/

/-- The kinds of symbols, with what the defined ones point to. A data symbol has no segment when
the linker makes it up. -/
inductive SymbolKind (κ γ : Type) where
  | definedFunction (function : κ)
  | definedData (segment : Option κ)
  | definedGlobal (global : γ)
  | undefinedFunction
  | undefinedData
  | undefinedGlobal
  | lazyKind
  | sectionKind
deriving DecidableEq

/-- The types of relocations. -/
inductive RelocType where
  | functionIndexLeb
  | tableIndexSleb
  | tableIndexI32
  | memoryAddrLeb
  | memoryAddrSleb
  | memoryAddrI32
  | typeIndexLeb
  | globalIndexLeb
  | functionOffsetI32
  | sectionOffsetI32
deriving DecidableEq

structure WasmRelocation where
  type : RelocType
  index : ℕ
deriving DecidableEq

/-- An object file: its functions with their `SymbolName`, its segments, and the symbols of its
init functions. -/
structure ObjFile (σ κ : Type) extends Dispatch.ObjFile where
  functions : List (Str × κ)
  segments : List κ
  initFunctions : List σ

/-- What `markLive` and `assignIndexes` read, once the symbols are resolved. -/
structure Link (σ κ γ : Type) where
  entry : Str
  callCtors : σ
  stackPointer : γ
  find : Str → Option σ
  symbols : List σ
  kind : σ → SymbolKind κ γ
  isHidden : σ → Bool
  isWeak : σ → Bool
  isUsedInRegularObj : σ → Bool
  tableIndex : σ → Option ℕ
  relocations : κ → List WasmRelocation
  /-- `C->File->getSymbol(Index)` -/
  getSymbol : κ → ℕ → σ
  syntheticFunctions : List κ
  objectFiles : List (ObjFile σ κ)
  find_mem : ∀ name s, find name = some s → s ∈ symbols
  function_mem : ∀ s c, kind s = .definedFunction c →
    c ∈ syntheticFunctions ∨ ∃ file ∈ objectFiles, c ∈ file.functions.map (·.2)
  segment_mem : ∀ s c, kind s = .definedData (some c) → ∃ file ∈ objectFiles, c ∈ file.segments

variable {σ κ γ : Type}

/-! ## `isLive` and `markLive` of a symbol -/

/-- A flag of the linker: `Global->Live`, `Chunk->Live` or `Referenced`. -/
inductive Flag (σ κ γ : Type) where
  | globalLive (global : γ)
  | chunkLive (chunk : κ)
  | referenced (sym : σ)
deriving DecidableEq

namespace Link

variable (L : Link σ κ γ)

/-- `Symbol::getChunk` -/
def getChunk (sym : σ) : Option κ :=
  match L.kind sym with
  | .definedFunction function => some function
  | .definedData segment => segment
  | _ => none

/-- The flag that `Symbol::isLive` returns. -/
def liveFlag (sym : σ) : Flag σ κ γ :=
  match L.kind sym with
  | .definedGlobal global => .globalLive global
  | _ =>
    match L.getChunk sym with
    | some chunk => .chunkLive chunk
    | none => .referenced sym

/-- The flags that `Symbol::markLive` sets. -/
def liveFlags (sym : σ) : List (Flag σ κ γ) :=
  (match L.kind sym with
    | .definedGlobal global => [.globalLive global]
    | _ => []) ++
  (match L.getChunk sym with
    | some chunk => [.chunkLive chunk]
    | none => []) ++
  [.referenced sym]

/-- A relocation that the loop skips: of a type, or of a function with the table index zero. -/
def skips (chunk : κ) (reloc : WasmRelocation) : Bool :=
  match reloc.type with
  | .typeIndexLeb => true
  -- such a function is not in the table, so it is only called directly
  | .tableIndexSleb => L.tableIndex (L.getSymbol chunk reloc.index) = some 0
  | .tableIndexI32 => L.tableIndex (L.getSymbol chunk reloc.index) = some 0
  | _ => false

/-- The symbols that the relocations of a chunk enqueue. -/
def referred (chunk : κ) : List σ :=
  ((L.relocations chunk).filter fun reloc => !L.skips chunk reloc).map fun reloc =>
    L.getSymbol chunk reloc.index

lemma mem_liveFlags (s : σ) (flag : Flag σ κ γ) :
    flag ∈ L.liveFlags s ↔ flag = L.liveFlag s ∨ flag = .referenced s := by
  unfold liveFlags liveFlag getChunk
  cases L.kind s with
  | definedData segment => cases segment <;> simp
  | _ => simp

lemma eq_of_liveFlag_eq_referenced {s t : σ} (h : L.liveFlag t = .referenced s) : t = s := by
  unfold liveFlag getChunk at h
  cases hk : L.kind t with
  | definedData segment => cases segment <;> simp_all
  | _ => simp_all

/-- Marking a symbol live sets the flag of another one only if the two share it. -/
lemma liveFlag_mem_liveFlags (s t : σ) :
    L.liveFlag t ∈ L.liveFlags s ↔ L.liveFlag t = L.liveFlag s := by
  rw [mem_liveFlags]
  constructor
  · rintro (h | h)
    · exact h
    · rw [L.eq_of_liveFlag_eq_referenced h]
  · exact .inl

lemma getChunk_eq_some_iff (s : σ) (c : κ) :
    L.getChunk s = some c ↔ L.liveFlag s = .chunkLive c := by
  unfold liveFlag getChunk
  cases L.kind s with
  | definedFunction function => simp
  | definedData segment => cases segment <;> simp
  | _ => simp

/-- The symbols with their flags and chunks, as `Enqueue` sees them. -/
def graph : Graph σ (Flag σ κ γ) κ where
  bit := L.liveFlag
  marks := L.liveFlags
  chunk := L.getChunk
  chunkBit := .chunkLive
  next := L.referred
  bit_mem_marks := L.liveFlag_mem_liveFlags
  chunk_iff := L.getChunk_eq_some_iff

/-! ## The roots -/

/-- `Enqueue(Symtab->find(name))`; nothing when there is no such symbol. -/
def findSymbol (name : Str) : List σ := (L.find name).toList

/-- The names that are roots wherever an object file with actions has a function of that name. -/
def isHook (name : Str) : Bool :=
  name = preDispatch || name = postDispatch || name = uosioAssertCode

/-- What an action entry and a function of its object file enqueue. -/
def actionRoots (func act : Str) : List σ :=
  (if func = afterColon act then L.findSymbol func else []) ++
  (if isHook func then L.findSymbol func else [])

/-- `_not.substr(_not.find(":")+2)`, of a `StringRef`: it is empty past the end. -/
def notifySub (notif : Str) : Str :=
  match notif.dropWhile (· ≠ ':') with
  | [] => notif.drop 1
  | rest => rest.drop 2

/-- What a notify entry and a function of its object file enqueue. -/
def notifyRoots (func notif : Str) : List σ :=
  if func = afterColon (notifySub notif) then L.findSymbol func else []

/-- The symbols that are enqueued first, in this order. -/
def roots : List σ :=
  (if L.entry = [] then [] else L.findSymbol L.entry) ++
  [L.callCtors] ++
  L.findSymbol cxaFinalize ++
  -- what is exported
  (L.symbols.filter fun sym => !L.isHidden sym) ++
  -- static constructors
  L.objectFiles.flatMap (·.initFunctions) ++
  -- handlers that the object file lists itself, and its hooks when it lists an action
  (L.objectFiles.flatMap fun file => file.functions.flatMap fun func =>
    file.uosioActions.flatMap fun act => L.actionRoots func.1 act) ++
  (L.objectFiles.flatMap fun file => file.functions.flatMap fun func =>
    file.uosioNotify.flatMap fun notif => L.notifyRoots func.1 notif)

/-! ## `markLive` -/

variable [DecidableEq σ] [DecidableEq κ] [DecidableEq γ]

/-- The chunks that a symbol can stand for. -/
def chunks : List κ :=
  L.syntheticFunctions ++
  L.objectFiles.flatMap fun file => file.functions.map (·.2) ++ file.segments

/-- `markLive`, with as many rounds of its loop as there are chunks. Only `__stack_pointer` is live
before. -/
def markLive : Marks (Flag σ κ γ) κ :=
  L.graph.sweep L.chunks.length
    (L.graph.enqueueAll ⟨[.globalLive L.stackPointer], []⟩ L.roots)

/-- `Chunk->Live` after `markLive` -/
def live (chunk : κ) : Bool := .chunkLive chunk ∈ L.markLive.live

/-! ## `calculateImports` and `assignIndexes` -/

/-- A counter, and the index of each of the things that have been numbered with it. -/
structure Indexes (ι : Type) where
  counter : UInt32
  index : ι → Option UInt32

def Indexes.assign {ι : Type} [DecidableEq ι] (st : Indexes ι) (x : ι) : Indexes ι :=
  ⟨st.counter + 1, Function.update st.index x (some st.counter)⟩

/-- `calculateImports` gives the symbol an index among the imported functions. -/
def isImportedFunction (sym : σ) : Bool :=
  (match L.kind sym with
    | .undefinedFunction => true
    | _ => false) &&
  !L.isWeak sym && (L.liveFlag sym ∈ L.markLive.live) && L.isUsedInRegularObj sym

/-- `calculateImports`, of the functions; the counter is `NumImportedFunctions`. -/
def calculateImports : Indexes σ :=
  L.symbols.foldl (fun st sym => if L.isImportedFunction sym then st.assign sym else st)
    ⟨0, fun _ => none⟩

/-- `AddDefinedFunction` -/
def addDefinedFunction (st : Indexes κ) (func : κ) : Indexes κ :=
  if L.live func then st.assign func else st

/-- The functions of `assignIndexes`: the synthetic ones, then those of the object files. -/
def definedFunctions : List κ :=
  L.syntheticFunctions ++ L.objectFiles.flatMap fun file => file.functions.map (·.2)

/-- The part of `assignIndexes` that numbers the functions. -/
def assignIndexes : Indexes κ :=
  L.definedFunctions.foldl L.addDefinedFunction ⟨L.calculateImports.counter, fun _ => none⟩

/-- `FunctionSymbol::getFunctionIndex`; it asserts that there is one. -/
def getFunctionIndex (sym : σ) : Option UInt32 :=
  match L.kind sym with
  | .definedFunction func => L.assignIndexes.index func
  | _ => L.calculateImports.index sym

/-- The linker when `createDispatchFunction` runs, with the indices that have been assigned. -/
def linker : Linker where
  objectFiles := L.objectFiles.map (·.toObjFile)
  find name := (L.find name).bind L.getFunctionIndex
  symbolCount := L.symbols.length

end Link

end UosioCdt.Dispatch.Gc
