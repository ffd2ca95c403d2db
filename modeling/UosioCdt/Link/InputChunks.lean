import UosioCdt.Dispatch.MarkLive
import UosioCdt.Lib.BlockWrites
import UosioCdt.Lib.LittleEndian
import UosioCdt.Lib.PaddedLeb128

/-!
# Input chunks and the code section of the linker

`InputChunk::writeTo` copies a chunk and puts the new value of every relocation over the old one, in
five padded groups. With `CompressRelocTargets` an `InputFunction` is written with short numbers
instead, in a size that `calculateSize` works out beforehand. `CodeSection` lays the functions out and
writes them in parallel. A write is a block of bytes and its place in the section. The offsets of the
chunks are `int32_t`: in a section of 2 GiB and more they can be negative, and nothing is known of a
write in front of the section.
-/

namespace UosioCdt.Link

open BlockWrites Dispatch Leb128

/-! ## Relocations -/

/-- `WasmRelocation`, with its place. -/
structure WasmRelocation extends Gc.WasmRelocation where
  offset : ℕ
  addend : ℤ

/-- How the value of a relocation is written. -/
inductive FieldKind where
  | leb
  | sleb
  | i32
deriving DecidableEq, Repr

/-- The cases of the switches over `Rel.Type`. -/
def WasmRelocation.kind (rel : WasmRelocation) : FieldKind :=
  match rel.type with
  | .typeIndexLeb | .functionIndexLeb | .globalIndexLeb | .memoryAddrLeb => .leb
  | .tableIndexSleb | .memoryAddrSleb => .sleb
  | .tableIndexI32 | .memoryAddrI32 | .functionOffsetI32 | .sectionOffsetI32 => .i32

/-- `static_cast<int32_t>(Value)` -/
def signed (value : UInt32) : ℤ := value.toBitVec.toInt

/-- What `writeTo` puts at the place of a relocation. -/
def paddedReloc (rel : WasmRelocation) (value : UInt32) : List UInt8 :=
  match rel.kind with
  | .leb => padU 5 value.toNat
  | .sleb => padS 5 (signed value)
  | .i32 => LittleEndian.toBytes 4 value.toNat

/-- `writeCompressedReloc`; the fields of four bytes are not reachable, no code has them. -/
def compressedReloc (rel : WasmRelocation) (value : UInt32) : List UInt8 :=
  match rel.kind with
  | .leb => encodeU value.toNat
  | .sleb => encodeS (signed value)
  | .i32 => []

/-- `getRelocWidthPadded` -/
def relocWidthPadded : ℕ := 5

/-! ## Chunks -/

/-- `InputChunk`: its content and the place of this in the section of the object file, its
relocations, and `File->calcNewValue`. -/
structure InputChunk where
  data : List UInt8
  inputSectionOffset : ℕ
  relocations : List WasmRelocation
  calcNewValue : WasmRelocation → UInt32

/-- `InputChunk::copyRelocations`: those of the section that start inside the chunk. -/
def copyRelocations (relocations : List WasmRelocation) (start size : ℕ) : List WasmRelocation :=
  relocations.filter fun rel => rel.offset ≥ start ∧ rel.offset < start + size

/-- The place of `Buf + off`, unless it is in front of the section. -/
def place (off : ℤ) : Option ℕ := if 0 ≤ off then some off.toNat else none

/-- `InputChunk::writeTo`: the copy, and then the relocations; `none` when one of these writes goes in
front of the section. -/
def InputChunk.writes (c : InputChunk) (outputOffset : Int32) : Option (List (Write UInt8)) := do
  let pos ← place outputOffset.toInt
  let off := outputOffset - Int32.ofNat c.inputSectionOffset
  let relocs ← c.relocations.mapM fun rel => do
    let loc ← place (rel.offset + off.toInt)
    return ⟨loc, paddedReloc rel (c.calcNewValue rel)⟩
  return ⟨pos, c.data⟩ :: relocs

/-- An `InputFunction` of an object file: the content of its code section, and where the function
is. -/
structure ObjFunction where
  content : List UInt8
  codeSectionOffset : ℕ
  size : ℕ
  relocations : List WasmRelocation
  calcNewValue : WasmRelocation → UInt32

namespace ObjFunction

variable (f : ObjFunction)

/-- `InputFunction::data` -/
def data : List UInt8 := (f.content.drop f.codeSectionOffset).take f.size

/-- The function as a chunk. -/
def chunk : InputChunk := ⟨f.data, f.codeSectionOffset, f.relocations, f.calcNewValue⟩

/-- The bytes of the number at `FuncStart`. -/
def sizeLength : ℕ := (groups (f.content.drop f.codeSectionOffset)).length

/-- `Start + FunctionSizeLength` -/
def bodyStart : ℕ := f.codeSectionOffset + f.sizeLength

/-- `End` -/
def stop : ℕ := f.codeSectionOffset + f.size

/-- The loop of `calculateSize`. -/
def compressedRegions : ℕ → List WasmRelocation → ℤ
  | lastRelocEnd, [] => (f.stop : ℤ) - lastRelocEnd
  | lastRelocEnd, rel :: rels =>
    (rel.offset : ℤ) - lastRelocEnd + (compressedReloc rel (f.calcNewValue rel)).length +
      compressedRegions (rel.offset + relocWidthPadded) rels

/-- `CompressedFuncSize`, a `uint32_t`. -/
def compressedFuncSize : ℕ := (f.compressedRegions f.bodyStart f.relocations % 2 ^ 32).toNat

/-- `CompressedSize` -/
def compressedSize : ℕ := f.compressedFuncSize + (encodeU f.compressedFuncSize).length

/-- The loop of the compressed `writeTo`, with `Buf` at `buf`. -/
def compressedChunks : ℕ → ℕ → List WasmRelocation → List (Write UInt8)
  | buf, lastRelocEnd, [] =>
    [⟨buf, (f.content.drop lastRelocEnd).take (f.stop - lastRelocEnd)⟩]
  | buf, lastRelocEnd, rel :: rels =>
    let chunkSize := rel.offset - lastRelocEnd
    let reloc := compressedReloc rel (f.calcNewValue rel)
    ⟨buf, (f.content.drop lastRelocEnd).take chunkSize⟩ :: ⟨buf + chunkSize, reloc⟩ ::
      compressedChunks (buf + chunkSize + reloc.length) (rel.offset + relocWidthPadded) rels

/-- The compressed `writeTo`. -/
def compressedWrites (outputOffset : Int32) : Option (List (Write UInt8)) := do
  let buf ← place outputOffset.toInt
  let size := encodeU f.compressedFuncSize
  return ⟨buf, size⟩ :: f.compressedChunks (buf + size.length) f.bodyStart f.relocations

end ObjFunction

/-- `InputFunction`: one from an object file, or a `SyntheticFunction`. -/
inductive InputFunction where
  | object (f : ObjFunction)
  | synthetic (body : List UInt8)

namespace InputFunction

variable (compressRelocTargets : Bool)

/-- `InputFunction::getSize` -/
def getSize : InputFunction → ℕ
  | object f => if compressRelocTargets then f.compressedSize else f.data.length
  | synthetic body => body.length

/-- `InputFunction::writeTo` -/
def writes (outputOffset : Int32) : InputFunction → Option (List (Write UInt8))
  | object f =>
    if compressRelocTargets then f.compressedWrites outputOffset else f.chunk.writes outputOffset
  | synthetic body => do
    let pos ← place outputOffset.toInt
    return [⟨pos, body⟩]

end InputFunction

/-! ## `CodeSection` -/

section codeSection

variable (compressRelocTargets : Bool)

/-- `CodeSectionHeader` -/
def codeSectionHeader (functions : List InputFunction) : List UInt8 := encodeU functions.length

/-- The functions with their `OutputOffset`s, when they start at `bodySize`. -/
def placeFunctions : ℕ → List InputFunction → List (Int32 × InputFunction)
  | _, [] => []
  | bodySize, func :: functions =>
    (Int32.ofNat bodySize, func) ::
      placeFunctions (bodySize + func.getSize compressRelocTargets) functions

/-- `BodySize` behind the loop of the constructor. -/
def bodySize (functions : List InputFunction) : ℕ :=
  functions.foldl (fun size func => size + func.getSize compressRelocTargets)
    (codeSectionHeader functions).length

/-- What each call of `writeTo` in the `parallelForEach` writes. -/
def functionWrites (functions : List InputFunction) : Option (List (List (Write UInt8))) :=
  (placeFunctions compressRelocTargets (codeSectionHeader functions).length functions).mapM
    fun placed => placed.2.writes compressRelocTargets placed.1

/-- `CodeSection::writeTo` behind the header of the section, when the writes of the functions happen
in this order: what stands in a buffer that had the bytes `buf`. -/
def writeCode (functions : List InputFunction) (order : List (Write UInt8)) (buf : ℕ → UInt8) :
    List UInt8 :=
  slice (writeAll order ((⟨0, codeSectionHeader functions⟩ : Write UInt8).apply buf)) 0
    (bodySize compressRelocTargets functions)

end codeSection

end UosioCdt.Link
