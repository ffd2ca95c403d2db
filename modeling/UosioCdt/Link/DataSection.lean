import UosioCdt.Link.Layout

/-!
# The data section of the linker

`DataSection` gives every output segment a header with its address and its size, and the input
segments are written behind it, each at its `OutputSegmentOffset`. The output segments are written in
parallel.
-/

namespace UosioCdt.Link

open BlockWrites Leb128

namespace OutputSegment

variable (s : OutputSegment)

/-- `Segment->Header`: the memory, `i32.const` with the address, `end`, and the size. -/
def header : List UInt8 :=
  encodeU 0 ++ encodeU 0x41 ++ encodeS (signed (UInt32.ofNat s.startVA)) ++ encodeU 0x0b ++
    encodeU s.size

/-- What one call in the `parallelForEach` writes: the header and the input segments. -/
def writes (sectionOffset : UInt32) : Option (List (Write UInt8)) := do
  let chunks ← s.inputSegments.mapM fun p =>
    -- the sum becomes an `int32_t`
    p.2.chunk.writes (Int32.ofNat (sectionOffset.toNat + s.header.length + p.1))
  return ⟨sectionOffset.toNat, s.header⟩ :: chunks.flatten

end OutputSegment

/-- `DataSectionHeader` -/
def dataSectionHeader (segments : List OutputSegment) : List UInt8 := encodeU segments.length

/-- The output segments with their `SectionOffset`s, when they start at `bodySize`. -/
def placeInSection : ℕ → List OutputSegment → List (UInt32 × OutputSegment)
  | _, [] => []
  | bodySize, seg :: segments =>
    (UInt32.ofNat bodySize, seg) ::
      placeInSection (bodySize + (seg.header.length + seg.size)) segments

/-- `BodySize` behind the loop of the constructor. -/
def dataBodySize (segments : List OutputSegment) : ℕ :=
  segments.foldl (fun size seg => size + (seg.header.length + seg.size))
    (dataSectionHeader segments).length

/-- What each call of the `parallelForEach` writes. -/
def segmentWrites (segments : List OutputSegment) : Option (List (List (Write UInt8))) :=
  (placeInSection (dataSectionHeader segments).length segments).mapM fun placed =>
    placed.2.writes placed.1

/-- `DataSection::writeTo` behind the header of the section: the buffer, when the writes of the
segments happen in this order. -/
def dataBuffer (segments : List OutputSegment) (order : List (Write UInt8)) (buf : ℕ → UInt8) :
    ℕ → UInt8 :=
  writeAll order ((⟨0, dataSectionHeader segments⟩ : Write UInt8).apply buf)

/-- What stands there in the end. -/
def writeData (segments : List OutputSegment) (order : List (Write UInt8)) (buf : ℕ → UInt8) :
    List UInt8 :=
  slice (dataBuffer segments order buf) 0 (dataBodySize segments)

end UosioCdt.Link
