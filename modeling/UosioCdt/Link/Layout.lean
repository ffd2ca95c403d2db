import UosioCdt.Lib.BumpLayout
import UosioCdt.Link.InputChunks

/-!
# The memory of a linked contract

`createOutputSegments` collects the live data segments of the object files by name, and `layoutMemory`
gives every output segment its address and places the stack and the heap. All of it is arithmetic of
`uint32_t`: the functions take the modulus `w`, for the linker it is 2 ^ 32. With `w = 0` they count
without a bound.
-/

namespace UosioCdt.Link

open BumpLayout

/-- `InputSegment`: a chunk with the name and the alignment of the linking section of its object
file. -/
structure InputSegment where
  name : String
  alignment : ℕ
  chunk : InputChunk
  live : Bool

def InputSegment.getSize (inSeg : InputSegment) : ℕ := inSeg.chunk.data.length

/-- `OutputSegment`. The input segments stand with their `OutputSegmentOffset`s. -/
structure OutputSegment where
  name : String
  alignment : ℕ
  startVA : ℕ
  inputSegments : List (ℕ × InputSegment)
  size : ℕ

/-- The fields of `Configuration` that decide the layout. -/
structure Config where
  relocatable : Bool
  stackFirst : Bool
  mergeDataSegments : Bool
  globalBase : UInt32
  zStackSize : UInt32
  initialMemory : UInt32
  maxMemory : UInt32

/-- `kStackAlignment` -/
def kStackAlignment : ℕ := 16

/-- `WasmPageSize` -/
def wasmPageSize : ℕ := 65536

/-- `StringRef::startswith` -/
def startswith (name start : String) : Bool := start.toList.isPrefixOf name.toList

def getOutputDataSegmentName (cfg : Config) (name : String) : String :=
  if !cfg.mergeDataSegments then name
  else if startswith name ".text." then ".text"
  else if startswith name ".data." then ".data"
  else if startswith name ".bss." then ".bss"
  else name

/-- What `layoutMemory` leaves in the symbols of the linker and in the writer. -/
structure MemoryLayout where
  segments : List OutputSegment
  dsoHandle : ℕ
  dataEnd : ℕ
  stackPointer : Option ℕ
  heapBase : Option ℕ
  numMemoryPages : ℕ
  maxMemoryPages : ℕ
  errors : List String

section width

variable (w : ℕ)

namespace OutputSegment

/-- The constructor. -/
def new (name : String) : OutputSegment := ⟨name, 0, 0, [], 0⟩

/-- `OutputSegment::addInputSegment` -/
def addInputSegment (s : OutputSegment) (inSeg : InputSegment) : OutputSegment :=
  let offset := alignTo s.size inSeg.alignment % w
  { s with
    alignment := max s.alignment inSeg.alignment
    inputSegments := s.inputSegments ++ [(offset, inSeg)]
    size := (offset + inSeg.getSize) % w }

/-- `DefinedData::getVirtualAddress` of a symbol at `offset` in the input segment that is placed at
`outputSegmentOffset`. -/
def getVirtualAddress (s : OutputSegment) (outputSegmentOffset offset : ℕ) : ℕ :=
  (s.startVA + outputSegmentOffset + offset) % w

end OutputSegment

/-- The body of the loop of `createOutputSegments`, with `SegmentMap` as a search by name. -/
def addSegment (cfg : Config) (segments : List OutputSegment) (inSeg : InputSegment) :
    List OutputSegment :=
  let name := getOutputDataSegmentName cfg inSeg.name
  if segments.any (·.name = name) then
    segments.map fun s => if s.name = name then s.addInputSegment w inSeg else s
  else segments ++ [(OutputSegment.new name).addInputSegment w inSeg]

def createOutputSegments (cfg : Config) (files : List (List InputSegment)) : List OutputSegment :=
  (files.flatten.filter (·.live)).foldl (addSegment w cfg) []

/-- `PlaceStack`: the pointer behind the stack. -/
def placeStack (cfg : Config) (memoryPtr : ℕ) : ℕ :=
  if cfg.relocatable then memoryPtr
  else (alignTo memoryPtr kStackAlignment % w + cfg.zStackSize.toNat) % w

/-- The error of `PlaceStack`. -/
def stackErrors (cfg : Config) : List String :=
  if !cfg.relocatable ∧ cfg.zStackSize.toNat ≠ alignTo cfg.zStackSize.toNat kStackAlignment then
    ["stack size must be 16-byte aligned"]
  else []

/-- The loop over `Segments`: the addresses, and the pointer behind them. -/
def placeSegments : ℕ → List OutputSegment → List OutputSegment × ℕ
  | memoryPtr, [] => ([], memoryPtr)
  | memoryPtr, seg :: segments =>
    let startVA := alignTo memoryPtr seg.alignment % w
    let placed := placeSegments ((startVA + seg.size) % w) segments
    ({ seg with startVA := startVA } :: placed.1, placed.2)

/-- The errors for `Config->InitialMemory`. -/
def initialErrors (cfg : Config) (memoryPtr : ℕ) : List String :=
  if cfg.initialMemory.toNat = 0 then []
  else (if cfg.initialMemory.toNat ≠ alignTo cfg.initialMemory.toNat wasmPageSize then
      ["initial memory must be 65536-byte aligned"] else []) ++
    if memoryPtr > cfg.initialMemory.toNat then
      ["initial memory too small, " ++ toString memoryPtr ++ " bytes needed"]
    else []

/-- The errors for `Config->MaxMemory`. -/
def maxErrors (cfg : Config) (memoryPtr : ℕ) : List String :=
  if cfg.maxMemory.toNat = 0 then []
  else (if cfg.maxMemory.toNat ≠ alignTo cfg.maxMemory.toNat wasmPageSize then
      ["maximum memory must be 65536-byte aligned"] else []) ++
    if memoryPtr > cfg.maxMemory.toNat then
      ["maximum memory too small, " ++ toString memoryPtr ++ " bytes needed"]
    else []

/-- `MemoryPtr` behind the test of `Config->InitialMemory`. -/
def withInitialMemory (cfg : Config) (memoryPtr : ℕ) : ℕ :=
  if cfg.initialMemory.toNat = 0 ∨ memoryPtr > cfg.initialMemory.toNat then memoryPtr
  else cfg.initialMemory.toNat

/-- `DataStart` -/
def dataStart (cfg : Config) : ℕ :=
  if cfg.stackFirst then placeStack w cfg 0 else cfg.globalBase.toNat

/-- `MemoryPtr` behind the data and the stack. -/
def staticEnd (cfg : Config) (dataEnd : ℕ) : ℕ :=
  if cfg.stackFirst then dataEnd else placeStack w cfg dataEnd

/-- `Writer::layoutMemory` -/
def layoutMemory (cfg : Config) (segments : List OutputSegment) : MemoryLayout :=
  let placed := placeSegments w (dataStart w cfg) segments
  let heapBase := staticEnd w cfg placed.2
  let memoryPtr := withInitialMemory cfg heapBase
  { segments := placed.1
    dsoHandle := dataStart w cfg
    dataEnd := placed.2
    stackPointer :=
      if cfg.relocatable then none
      else some (if cfg.stackFirst then dataStart w cfg else heapBase)
    heapBase := if cfg.relocatable then none else some heapBase
    numMemoryPages := alignTo memoryPtr wasmPageSize % w / wasmPageSize
    maxMemoryPages := cfg.maxMemory.toNat / wasmPageSize
    errors := stackErrors cfg ++ initialErrors cfg heapBase ++ maxErrors cfg memoryPtr }

/-- `createOutputSegments` and the rest of `layoutMemory`. -/
def layoutFiles (cfg : Config) (files : List (List InputSegment)) : MemoryLayout :=
  layoutMemory w cfg (createOutputSegments w cfg files)

end width

end UosioCdt.Link
