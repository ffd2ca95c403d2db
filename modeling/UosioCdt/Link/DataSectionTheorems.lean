import UosioCdt.Link.DataSection
import UosioCdt.Link.InputChunksTheorems
import UosioCdt.Link.LayoutTheorems

/-!
# Theorems: the memory of a running contract

A module puts the segments of its data section into its memory when it starts (`readData`,
`instantiate`). Then every symbol of a data segment finds the bytes of its object file at its virtual
address, with the new values of the relocations.
-/

namespace UosioCdt.Link

open BlockWrites BumpLayout Leb128

/-! ## The data section of a module -/

/-- A byte that must be there. -/
def expectByte (byte : UInt8) : List UInt8 → Option (List UInt8)
  | b :: bs => if b = byte then some bs else none
  | [] => none

/-- An address, and the bytes that go there. -/
def readSegment (bs : List UInt8) : Option ((ℕ × List UInt8) × List UInt8) := do
  let (memory, bs) ← decodeU 32 bs
  let bs ← expectByte 0x41 bs
  let (start, bs) ← decodeS 32 bs
  let bs ← expectByte 0x0b bs
  let (n, bs) ← decodeU 32 bs
  if memory = 0 ∧ n ≤ bs.length then
    some (((start % 2 ^ 32).toNat, bs.take n), bs.drop n)
  else none

def readSegments : ℕ → List UInt8 → Option (List (ℕ × List UInt8) × List UInt8)
  | 0, bs => some ([], bs)
  | n + 1, bs => do
    let (segment, bs) ← readSegment bs
    let (segments, bs) ← readSegments n bs
    return (segment :: segments, bs)

/-- The count, and as many segments with nothing left over. -/
def readData (bs : List UInt8) : Option (List (ℕ × List UInt8)) := do
  let (n, bs) ← decodeU 32 bs
  match readSegments n bs with
  | some (segments, []) => some segments
  | _ => none

/-- The segments are copied into the memory in their order. -/
def instantiate (segments : List (ℕ × List UInt8)) (memory : ℕ → UInt8) : ℕ → UInt8 :=
  writeAll (segments.map fun segment => ⟨segment.1, segment.2⟩) memory

lemma signed_mod (n : ℕ) (h : n < 2 ^ 32) : (signed (UInt32.ofNat n) % 2 ^ 32).toNat = n := by
  unfold signed
  rw [BitVec.toInt_eq_toNat_bmod]
  have hnat : (UInt32.ofNat n).toBitVec.toNat = n := by
    change (UInt32.ofNat n).toNat = n
    rw [UInt32.toNat_ofNat']
    exact Nat.mod_eq_of_lt h
  rw [hnat, Int.bmod_def]
  omega

/-- A header and the bytes behind it. -/
lemma readSegment_header {s : OutputSegment} {bytes : List UInt8} (hstart : s.startVA < 2 ^ 32)
    (hsize : bytes.length = s.size) (hlt : s.size < 2 ^ 32) (rest : List UInt8) :
    readSegment (s.header ++ bytes ++ rest) = some ((s.startVA, bytes), rest) := by
  obtain ⟨hlo, hhi⟩ := signed_bounds (UInt32.ofNat s.startVA)
  have hconst : ∀ bs, expectByte 0x41 (encodeU 0x41 ++ bs) = some bs := fun bs => by
    rw [encodeU_of_lt (by decide)]
    rfl
  have hend : ∀ bs, expectByte 0x0b (encodeU 0x0b ++ bs) = some bs := fun bs => by
    rw [encodeU_of_lt (by decide)]
    rfl
  rw [← hsize] at hlt
  unfold readSegment OutputSegment.header
  rw [← hsize]
  simp only [List.append_assoc, decodeU_encodeU (show 0 < 2 ^ 32 by decide), hconst,
    decodeS_encodeS hlo hhi, hend, decodeU_encodeU hlt, Option.bind_eq_bind, Option.bind_some,
    signed_mod _ hstart, List.length_append, Nat.le_add_right, and_self, if_true,
    List.take_left, List.drop_left]

lemma readSegments_headers (placed : List (OutputSegment × List UInt8))
    (h : ∀ q ∈ placed, q.1.startVA < 2 ^ 32 ∧ q.2.length = q.1.size ∧ q.1.size < 2 ^ 32)
    (rest : List UInt8) :
    readSegments placed.length ((placed.flatMap fun q => q.1.header ++ q.2) ++ rest)
      = some (placed.map fun q => (q.1.startVA, q.2), rest) := by
  induction placed with
  | nil => rfl
  | cons q placed ih =>
    obtain ⟨hstart, hsize, hlt⟩ := h q List.mem_cons_self
    rw [List.flatMap_cons, List.append_assoc]
    change (readSegment _).bind _ = _
    rw [readSegment_header hstart hsize hlt]
    change (readSegments _ _).bind _ = _
    rw [ih fun r hr => h r (List.mem_cons_of_mem _ hr)]
    rfl

/-! ## What an input segment says -/

/-- The bytes of a field in a chunk. -/
def FieldKind.width : FieldKind → ℕ
  | .leb | .sleb => relocWidthPadded
  | .i32 => 4

namespace InputChunk

variable (c : InputChunk)

/-- What an object file promises of a chunk: its relocations are fields of it, in order and apart. -/
def WellFormed : Prop :=
  Ordered c.inputSectionOffset
    (c.relocations.map fun rel => (⟨rel.offset, rel.kind.width, []⟩ : Patch UInt8))
    (c.inputSectionOffset + c.data.length)

/-- The bytes of the object file with the new values at the relocations. -/
def relocated : List UInt8 :=
  splice c.data 0 (c.relocations.map fun rel =>
    ⟨rel.offset - c.inputSectionOffset, rel.kind.width, paddedReloc rel (c.calcNewValue rel)⟩)
    c.data.length

variable {c}

lemma length_paddedReloc_kind (rel : WasmRelocation) (value : UInt32) :
    (paddedReloc rel value).length = rel.kind.width := by
  by_cases h : rel.kind = .i32
  · unfold paddedReloc
    rw [h]
    exact LittleEndian.length_toBytes 4 _
  · rw [length_paddedReloc h]
    cases hkind : rel.kind with
    | leb => rfl
    | sleb => rfl
    | i32 => exact absurd hkind h

lemma ordered_fields (h : c.WellFormed) : Ordered 0 (c.relocations.map fun rel =>
    ⟨rel.offset - c.inputSectionOffset, rel.kind.width, paddedReloc rel (c.calcNewValue rel)⟩)
    c.data.length := by
  have hsub := ordered_sub (fun rel => paddedReloc rel (c.calcNewValue rel)) le_rfl h
  rwa [Nat.sub_self, Nat.add_sub_cancel_left] at hsub

lemma length_relocated (h : c.WellFormed) : c.relocated.length = c.data.length := by
  rw [relocated, length_splice_eq (ordered_fields h) le_rfl, Nat.sub_zero]
  intro f hf
  obtain ⟨rel, -, rfl⟩ := List.mem_map.mp hf
  exact length_paddedReloc_kind _ _

/-- Below 2 GiB `writeTo` makes the writes at the place of the chunk. -/
lemma WellFormed.writes_eq (h : c.WellFormed) {pos : ℕ} (hpos : pos < 2 ^ 31)
    (hinput : c.inputSectionOffset < 2 ^ 31) :
    c.writes (Int32.ofNat pos) = some (c.writesAt pos) :=
  InputChunk.writes_eq hpos hinput fun _ hrel => (h.bounds _ (List.mem_map_of_mem hrel)).1

/-- They make these bytes and nothing else. -/
lemma writes_fill (h : c.WellFormed) (pos : ℕ) :
    Fills (c.writesAt pos) ⟨pos, c.relocated⟩ := by
  have hordered := ordered_fields h
  have hlength := length_relocated h
  constructor
  · intro v hv
    rcases List.mem_cons.mp hv with rfl | hv
    · simp only [Write.stop, hlength, le_refl, and_self]
    · obtain ⟨rel, hrel, rfl⟩ := List.mem_map.mp hv
      have hbounds := hordered.bounds _ (List.mem_map_of_mem hrel)
      simp only at hbounds
      simp only [Write.stop, hlength, length_paddedReloc_kind]
      omega
  · intro m
    have hcopy : slice ((⟨pos, c.data⟩ : Write UInt8).apply m) (pos + (0 - 0))
        (c.data.length - 0) = (c.data.drop 0).take (c.data.length - 0) := by
      rw [Nat.sub_zero, Nat.add_zero, Nat.sub_zero, List.drop_zero, List.take_length]
      exact slice_apply (⟨pos, c.data⟩ : Write UInt8) m
    have hover := slice_overwrite le_rfl hordered (fun f hf => by
      obtain ⟨rel, -, rfl⟩ := List.mem_map.mp hf
      exact length_paddedReloc_kind _ _) hcopy
    rw [Nat.sub_zero, Nat.add_zero, Nat.sub_zero, List.map_map] at hover
    rw [hlength]
    exact hover

end InputChunk

/-! ## The buffer -/

namespace OutputSegment

variable (s : OutputSegment)

/-- The writes of a segment at a place of the section. -/
def writesAt (sectionOffset : ℕ) : List (Write UInt8) :=
  ⟨sectionOffset, s.header⟩ :: s.inputSegments.flatMap fun p =>
    p.2.chunk.writesAt (sectionOffset + s.header.length + p.1)

/-- Its writers one by one: the header, and each input segment. -/
def pieces (sectionOffset : ℕ) : List (List (Write UInt8)) :=
  [⟨sectionOffset, s.header⟩] :: s.inputSegments.map fun p =>
    p.2.chunk.writesAt (sectionOffset + s.header.length + p.1)

/-- What each of them fills. -/
def blocks (sectionOffset : ℕ) : List (Write UInt8) :=
  ⟨sectionOffset, s.header⟩ :: s.inputSegments.map fun p =>
    ⟨sectionOffset + s.header.length + p.1, p.2.chunk.relocated⟩

variable {s}

lemma writes_eq (h : s.Laid) (hchunks : ∀ p ∈ s.inputSegments, p.2.chunk.WellFormed)
    (hinput : ∀ p ∈ s.inputSegments, p.2.chunk.inputSectionOffset < 2 ^ 31) {sectionOffset : ℕ}
    (hlt : sectionOffset + (s.header.length + s.size) < 2 ^ 31) :
    s.writes (UInt32.ofNat sectionOffset) = some (s.writesAt sectionOffset) := by
  have hoffset : (UInt32.ofNat sectionOffset).toNat = sectionOffset := by
    rw [UInt32.toNat_ofNat']
    exact Nat.mod_eq_of_lt (by omega)
  unfold writes writesAt
  rw [hoffset, mapM_some fun p hp => (hchunks p hp).writes_eq (by
    have hbounds := h.stacked.bounds.2 _ (List.mem_map_of_mem hp)
    simp only at hbounds
    omega) (hinput p hp), List.flatMap]
  rfl

lemma pieces_flatten (sectionOffset : ℕ) :
    (s.pieces sectionOffset).flatten = s.writesAt sectionOffset := by
  rw [pieces, List.flatten_cons, writesAt, List.flatMap]
  rfl

lemma pieces_fill (h : ∀ p ∈ s.inputSegments, p.2.chunk.WellFormed) (sectionOffset : ℕ) :
    List.Forall₂ Fills (s.pieces sectionOffset) (s.blocks sectionOffset) := by
  refine .cons (fills_singleton _) ?_
  rw [List.forall₂_map_left_iff, List.forall₂_map_right_iff, List.forall₂_same]
  exact fun p hp => InputChunk.writes_fill (h p hp) _

/-- The blocks lie in the part of the section that the segment has. -/
lemma blocks_stacked (h : s.Laid) (hchunks : ∀ p ∈ s.inputSegments, p.2.chunk.WellFormed)
    (sectionOffset : ℕ) :
    Stacked sectionOffset ((s.blocks sectionOffset).map fun w => (w.pos, w.cells.length))
      (sectionOffset + (s.header.length + s.size)) := by
  have hparts := stacked_shift (sectionOffset + s.header.length) h.stacked
  rw [parts, List.map_map, Nat.add_zero, Nat.add_assoc sectionOffset] at hparts
  refine ⟨le_rfl, ?_⟩
  rw [List.map_map]
  simp only
  rw [List.map_congr_left fun p hp => by
    rw [Function.comp_apply, InputChunk.length_relocated (hchunks p hp)]]
  exact hparts

end OutputSegment

lemma apart_of_stacked {a e : ℕ} {ws : List (Write UInt8)}
    (h : Stacked a (ws.map fun w => (w.pos, w.cells.length)) e) : ws.Pairwise Write.Apart :=
  (List.pairwise_map.mp h.pairwise).imp .inl

section buffer

variable {segments : List OutputSegment} {start : ℕ}

lemma foldl_bodySize (start : ℕ) (segments : List OutputSegment) :
    segments.foldl (fun size seg => size + (seg.header.length + seg.size)) start
      = start + (segments.map fun seg => seg.header.length + seg.size).sum := by
  induction segments generalizing start with
  | nil => rfl
  | cons seg segments ih => rw [List.foldl_cons, ih, List.map_cons, List.sum_cons, Nat.add_assoc]

/-- The segments with their places in the section. -/
def segmentPlaces : ℕ → List OutputSegment → List (ℕ × OutputSegment)
  | _, [] => []
  | start, seg :: segments =>
    (start, seg) :: segmentPlaces (start + (seg.header.length + seg.size)) segments

/-- What the segments write there. -/
def segmentWritesAt (segments : List OutputSegment) : List (List (Write UInt8)) :=
  (segmentPlaces (dataSectionHeader segments).length segments).map fun placed =>
    placed.2.writesAt placed.1

/-- Every segment has a header. -/
lemma length_le_dataBodySize (segments : List OutputSegment) :
    segments.length ≤ dataBodySize segments := by
  rw [dataBodySize, foldl_bodySize]
  generalize (dataSectionHeader segments).length = start
  induction segments with
  | nil => exact Nat.zero_le _
  | cons seg segments ih =>
    have hheader : 0 < seg.header.length := by
      unfold OutputSegment.header
      rw [encodeU_of_lt (by decide)]
      simp
    rw [List.map_cons, List.sum_cons, List.length_cons]
    omega

lemma segmentPlaces_snd (start : ℕ) (segments : List OutputSegment) :
    (segmentPlaces start segments).map Prod.snd = segments := by
  induction segments generalizing start with
  | nil => rfl
  | cons seg segments ih => exact congrArg (seg :: ·) (ih _)

lemma mem_of_placed {q : ℕ × OutputSegment} (hq : q ∈ segmentPlaces start segments) :
    q.2 ∈ segments := by
  rw [← segmentPlaces_snd start segments]
  exact List.mem_map_of_mem hq

lemma segmentPlaces_stacked (start : ℕ) (segments : List OutputSegment) :
    Stacked start ((segmentPlaces start segments).map fun q =>
      (q.1, q.2.header.length + q.2.size))
      (start + (segments.map fun seg => seg.header.length + seg.size).sum) := by
  induction segments generalizing start with
  | nil => exact Nat.le_refl _
  | cons seg segments ih =>
    rw [List.map_cons, List.sum_cons, ← Nat.add_assoc]
    exact ⟨le_rfl, ih _⟩

/-- The parts of the segments make up the section. -/
lemma slice_placed (m : ℕ → UInt8) (start : ℕ) (segments : List OutputSegment) :
    slice m start (segments.map fun seg => seg.header.length + seg.size).sum
      = (segmentPlaces start segments).flatMap fun q =>
          slice m q.1 (q.2.header.length + q.2.size) := by
  induction segments generalizing start with
  | nil => rfl
  | cons seg segments ih =>
    rw [List.map_cons, List.sum_cons, slice_append, ih]
    rfl

/-- Everything that is written behind the count. -/
def allBlocks (start : ℕ) (segments : List OutputSegment) : List (Write UInt8) :=
  (segmentPlaces start segments).flatMap fun q => q.2.blocks q.1

variable (hlaid : ∀ s ∈ segments, s.Laid)
  (hchunks : ∀ s ∈ segments, ∀ p ∈ s.inputSegments, p.2.chunk.WellFormed)

include hlaid hchunks

lemma allBlocks_stacked (start : ℕ) : Stacked start
    ((allBlocks start segments).map fun w => (w.pos, w.cells.length))
    (start + (segments.map fun seg => seg.header.length + seg.size).sum) := by
  rw [allBlocks, List.map_flatMap]
  exact stacked_flatMap (segmentPlaces_stacked start segments) fun q hq =>
    OutputSegment.blocks_stacked (hlaid _ (mem_of_placed hq)) (hchunks _ (mem_of_placed hq)) q.1

/-- In a section below 2 GiB the offsets are the places. -/
lemma segmentWrites_eq (hinput : ∀ s ∈ segments, ∀ p ∈ s.inputSegments,
      p.2.chunk.inputSectionOffset < 2 ^ 31)
    (hsize : dataBodySize segments < 2 ^ 31) :
    segmentWrites segments = some (segmentWritesAt segments) := by
  unfold segmentWrites segmentWritesAt
  rw [dataBodySize, foldl_bodySize] at hsize
  generalize (dataSectionHeader segments).length = start at hsize ⊢
  induction segments generalizing start with
  | nil => rfl
  | cons seg segments ih =>
    rw [List.map_cons, List.sum_cons, ← Nat.add_assoc] at hsize
    have hbound : start + (seg.header.length + seg.size) < 2 ^ 31 := by omega
    have hseg := OutputSegment.writes_eq (hlaid seg List.mem_cons_self)
      (hchunks seg List.mem_cons_self) (hinput seg List.mem_cons_self) hbound
    unfold placeInSection segmentPlaces
    rw [List.mapM_cons, hseg, ih (fun s hs => hlaid s (List.mem_cons_of_mem _ hs))
      (fun s hs => hchunks s (List.mem_cons_of_mem _ hs))
      (fun s hs => hinput s (List.mem_cons_of_mem _ hs)) _ hsize]
    rfl

/-- However the writers take turns, the buffer is the one with all blocks. -/
lemma dataBuffer_eq {order : List (Write UInt8)}
    (horder : Interleaves (segmentWritesAt segments) order) (buf : ℕ → UInt8) :
    dataBuffer segments order buf = writeAll (⟨0, dataSectionHeader segments⟩ ::
      allBlocks (dataSectionHeader segments).length segments) buf := by
  have hpieces : Interleaves ((segmentPlaces (dataSectionHeader segments).length segments).map
      fun q => q.2.pieces q.1).flatten order := by
    refine interleaves_split ?_
    rw [List.map_map, List.map_congr_left fun q _ => OutputSegment.pieces_flatten q.1]
    exact horder
  have hfill : List.Forall₂ Fills ((segmentPlaces (dataSectionHeader segments).length segments).map
      fun q => q.2.pieces q.1).flatten
      (allBlocks (dataSectionHeader segments).length segments) := by
    rw [allBlocks, List.flatMap]
    refine List.rel_flatten ?_
    rw [List.forall₂_map_left_iff, List.forall₂_map_right_iff, List.forall₂_same]
    exact fun q hq => OutputSegment.pieces_fill (hchunks _ (mem_of_placed hq)) q.1
  rw [dataBuffer, writeAll_of_fills hfill (apart_of_stacked (allBlocks_stacked hlaid hchunks _))
    hpieces, writeAll_cons]

/-- What stands at the place of a block. -/
lemma slice_dataBuffer {order : List (Write UInt8)}
    (horder : Interleaves (segmentWritesAt segments) order) (buf : ℕ → UInt8) {w : Write UInt8}
    (hw : w = ⟨0, dataSectionHeader segments⟩ ∨
      w ∈ allBlocks (dataSectionHeader segments).length segments) :
    slice (dataBuffer segments order buf) w.pos w.cells.length = w.cells := by
  rw [dataBuffer_eq hlaid hchunks horder]
  refine slice_writeAll ?_ (List.mem_cons.mpr hw)
  refine apart_of_stacked (a := 0) (e := (dataSectionHeader segments).length
    + (segments.map fun seg => seg.header.length + seg.size).sum) ⟨le_rfl, ?_⟩
  simp only [Nat.zero_add]
  exact allBlocks_stacked hlaid hchunks _

/-- The module has the address of every segment, and what was written behind its header. -/
lemma readData_writeData {order : List (Write UInt8)}
    (horder : Interleaves (segmentWritesAt segments) order) (buf : ℕ → UInt8)
    (hbounds : ∀ s ∈ segments, s.startVA < 2 ^ 32 ∧ s.size < 2 ^ 32)
    (hcount : segments.length < 2 ^ 32) :
    readData (writeData segments order buf) = some
      ((segmentPlaces (dataSectionHeader segments).length segments).map fun q =>
        (q.2.startVA,
          slice (dataBuffer segments order buf) (q.1 + q.2.header.length) q.2.size)) := by
  have hslice := fun w => slice_dataBuffer hlaid hchunks horder buf (w := w)
  rw [writeData, dataBodySize, foldl_bodySize]
  generalize dataBuffer segments order buf = m at hslice ⊢
  have hheader : ∀ q ∈ segmentPlaces (dataSectionHeader segments).length segments,
      slice m q.1 (q.2.header.length + q.2.size)
        = q.2.header ++ slice m (q.1 + q.2.header.length) q.2.size := by
    intro q hq
    have hw := hslice ⟨q.1, q.2.header⟩
      (.inr (List.mem_flatMap.mpr ⟨q, hq, List.mem_cons_self⟩))
    rw [slice_append, hw]
  have hread := readSegments_headers
    ((segmentPlaces (dataSectionHeader segments).length segments).map fun q =>
      (q.2, slice m (q.1 + q.2.header.length) q.2.size)) (fun r hr => by
    obtain ⟨q, hq, rfl⟩ := List.mem_map.mp hr
    obtain ⟨hstart, hsize⟩ := hbounds q.2 (mem_of_placed hq)
    exact ⟨hstart, length_slice _ _ _, hsize⟩) []
  have hlength : (segmentPlaces (dataSectionHeader segments).length segments).length
      = segments.length := by
    rw [← List.length_map (f := Prod.snd), segmentPlaces_snd]
  rw [List.length_map, hlength, List.append_nil, List.flatMap_map, List.map_map] at hread
  have hcounted := hslice ⟨0, dataSectionHeader segments⟩ (.inl rfl)
  simp only at hcounted
  rw [slice_append, hcounted, Nat.zero_add, slice_placed, List.flatMap_congr hheader, readData,
    dataSectionHeader, decodeU_encodeU hcount]
  simp only [Option.bind_eq_bind, Option.bind_some]
  rw [dataSectionHeader] at hread
  rw [hread]
  rfl

/-- In the memory, an input segment is where its output segment puts it. -/
lemma slice_instantiate {order : List (Write UInt8)}
    (horder : Interleaves (segmentWritesAt segments) order) (buf memory : ℕ → UInt8) {ptr e : ℕ}
    (hstacked : Stacked ptr (segments.map fun s => (s.startVA, s.size)) e)
    {data : List (ℕ × List UInt8)}
    (hdata : data = (segmentPlaces (dataSectionHeader segments).length segments).map fun q =>
      (q.2.startVA,
        slice (dataBuffer segments order buf) (q.1 + q.2.header.length) q.2.size)) :
    (∀ s ∈ segments, ∀ p ∈ s.inputSegments,
      slice (instantiate data memory) (s.startVA + p.1) p.2.getSize = p.2.chunk.relocated) ∧
    ∀ a, a < ptr ∨ e ≤ a → instantiate data memory a = memory a := by
  have hslice := fun w => slice_dataBuffer hlaid hchunks horder buf (w := w)
  generalize dataBuffer segments order buf = m at hslice hdata
  have hareas : Stacked ptr ((data.map fun d => (⟨d.1, d.2⟩ : Write UInt8)).map fun w =>
      (w.pos, w.cells.length)) e := by
    rw [hdata, List.map_map, List.map_map]
    have hsame : segments.map (fun s => (s.startVA, s.size))
        = (segmentPlaces (dataSectionHeader segments).length segments).map fun q =>
          (q.2.startVA, q.2.size) := by
      conv_lhs => rw [← segmentPlaces_snd (dataSectionHeader segments).length segments]
      exact List.map_map
    rw [hsame] at hstacked
    refine Eq.mp (congrArg (Stacked ptr · e) (List.map_congr_left fun q _ => ?_)) hstacked
    simp only [Function.comp_apply, length_slice]
  constructor
  · intro s hs p hp
    rw [← segmentPlaces_snd (dataSectionHeader segments).length segments] at hs
    obtain ⟨q, hq, rfl⟩ := List.mem_map.mp hs
    have hsize := InputChunk.length_relocated (hchunks _ (mem_of_placed hq) p hp)
    have hinside := (hlaid _ (mem_of_placed hq)).stacked.bounds.2 _ (List.mem_map_of_mem hp)
    have hsegment := slice_writeAll (m := memory) (apart_of_stacked hareas)
      (List.mem_map_of_mem (hdata ▸ List.mem_map_of_mem hq))
    simp only [length_slice] at hsegment
    have hblock := hslice ⟨q.1 + q.2.header.length + p.1, p.2.chunk.relocated⟩
      (.inr (List.mem_flatMap.mpr ⟨q, hq, List.mem_cons_of_mem _ (List.mem_map_of_mem hp)⟩))
    simp only [hsize] at hblock
    exact (slice_part hsegment hinside.2).trans hblock
  · intro a ha
    refine writeAll_outside fun w hw => ?_
    have hbounds := hareas.bounds.2 _ (List.mem_map_of_mem hw)
    unfold Write.stop
    simp only at hbounds
    omega

end buffer

/-- When a linked contract starts, every live data segment of its object files stands at the address
that the symbols have for it, with the new values of its relocations, and outside of the data the
memory is as it was. The writers of the data section can take turns in any way. The program fits into
the address space, and the data section and those of the object files are below 2 GiB. -/
theorem instantiate_writeData (cfg : Config) (files : List (List InputSegment))
    (halign : ∀ inSeg ∈ files.flatten, inSeg.live = true → ∃ k, inSeg.alignment = 2 ^ k)
    (hchunks : ∀ inSeg ∈ files.flatten, inSeg.live = true → inSeg.chunk.WellFormed)
    (hinput : ∀ inSeg ∈ files.flatten, inSeg.live = true →
      inSeg.chunk.inputSectionOffset < 2 ^ 31)
    (hfits : (layoutFiles 0 cfg files).numMemoryPages < 65536)
    (hsize : dataBodySize (layoutFiles (2 ^ 32) cfg files).segments < 2 ^ 31) :
    ∃ writers, segmentWrites (layoutFiles (2 ^ 32) cfg files).segments = some writers ∧
      ∀ order, Interleaves writers order → ∀ buf memory, ∃ data,
        readData (writeData (layoutFiles (2 ^ 32) cfg files).segments order buf) = some data ∧
        (∀ s ∈ (layoutFiles (2 ^ 32) cfg files).segments, ∀ p ∈ s.inputSegments,
          slice (instantiate data memory) (s.getVirtualAddress (2 ^ 32) p.1 0) p.2.getSize
            = p.2.chunk.relocated) ∧
        ∀ a, a < (layoutFiles (2 ^ 32) cfg files).dsoHandle ∨
          (layoutFiles (2 ^ 32) cfg files).dataEnd ≤ a → instantiate data memory a = memory a := by
  have hl : ∀ inSeg ∈ files.flatten.filter (·.live), ∃ k, inSeg.alignment = 2 ^ k := by
    intro inSeg hmem
    obtain ⟨hmem, hlive⟩ := List.mem_filter.mp hmem
    exact halign inSeg hmem hlive
  obtain ⟨hcollected, hperm⟩ := collected_foldl cfg hl
  rw [layoutFiles_eq hl hfits] at hsize ⊢
  have hlt := dataEnd_lt hcollected.laid hfits
  have hstacked := placed_stacked (dataStart 0 cfg)
    fun s hs => (hcollected.laid s hs).align_pos
  have hlaid := fun s hs => (placed_laid (dataStart 0 cfg) hcollected.laid s hs).1
  have haddress := getVirtualAddress_eq hcollected.laid hlt
  have hinputs : ∀ s ∈ (layoutFiles 0 cfg files).segments, ∀ p ∈ s.inputSegments,
      p.2 ∈ files.flatten ∧ p.2.live = true := by
    intro s hs p hp
    have hmem : p.2 ∈ inputsOf (layoutFiles 0 cfg files).segments :=
      List.mem_flatMap.mpr ⟨s, hs, List.mem_map_of_mem hp⟩
    rw [show inputsOf (layoutFiles 0 cfg files).segments = _ from placeSegments_forget] at hmem
    exact List.mem_filter.mp (hperm.mem_iff.mp hmem)
  have hwellFormed : ∀ s ∈ (layoutFiles 0 cfg files).segments, ∀ p ∈ s.inputSegments,
      p.2.chunk.WellFormed := by
    intro s hs p hp
    obtain ⟨hmem, hlive⟩ := hinputs s hs p hp
    exact hchunks p.2 hmem hlive
  have hoffsets : ∀ s ∈ (layoutFiles 0 cfg files).segments, ∀ p ∈ s.inputSegments,
      p.2.chunk.inputSectionOffset < 2 ^ 31 := by
    intro s hs p hp
    obtain ⟨hmem, hlive⟩ := hinputs s hs p hp
    exact hinput p.2 hmem hlive
  have hbounds : ∀ s ∈ (layoutFiles 0 cfg files).segments,
      s.startVA < 2 ^ 32 ∧ s.size < 2 ^ 32 := by
    intro s hs
    have harea := (hstacked.bounds.2 _ (List.mem_map_of_mem hs)).2
    have hend : s.startVA + s.size < 2 ^ 32 := harea.trans_lt hlt
    omega
  have hcount : (layoutFiles 0 cfg files).segments.length < 2 ^ 32 := by
    have hle := length_le_dataBodySize (layoutFiles 0 cfg files).segments
    omega
  refine ⟨_, segmentWrites_eq hlaid hwellFormed hoffsets hsize,
    fun order horder buf memory => ?_⟩
  refine ⟨_, readData_writeData hlaid hwellFormed horder buf hbounds hcount, ?_⟩
  obtain ⟨hinside, houtside⟩ := slice_instantiate hlaid hwellFormed horder buf memory hstacked rfl
  refine ⟨fun s hs p hp => ?_, houtside⟩
  rw [haddress s hs p hp 0 (Nat.zero_le _)]
  exact hinside s hs p hp

lemma layoutExample_wellFormed : ∀ inSeg ∈ layoutExample.flatten, inSeg.live = true →
    inSeg.chunk.WellFormed := by
  intro inSeg hmem _
  rcases List.mem_cons.mp hmem with rfl | hmem
  · exact (by decide : 0 ≤ 3)
  · rcases List.mem_pair.mp hmem with rfl | rfl
    · exact (by decide : 3 ≤ 7)
    · exact ⟨by decide, (by decide : 13 ≤ 15)⟩

theorem instantiate_writeData_example :
    ∃ writers, segmentWrites (layoutFiles (2 ^ 32) layoutConfig layoutExample).segments
        = some writers ∧
      ∀ order, Interleaves writers order → ∀ buf memory, ∃ data,
        readData (writeData (layoutFiles (2 ^ 32) layoutConfig layoutExample).segments order buf)
          = some data ∧
        (∀ s ∈ (layoutFiles (2 ^ 32) layoutConfig layoutExample).segments, ∀ p ∈ s.inputSegments,
          slice (instantiate data memory) (s.getVirtualAddress (2 ^ 32) p.1 0) p.2.getSize
            = p.2.chunk.relocated) ∧
        ∀ a, a < (layoutFiles (2 ^ 32) layoutConfig layoutExample).dsoHandle ∨
          (layoutFiles (2 ^ 32) layoutConfig layoutExample).dataEnd ≤ a →
            instantiate data memory a = memory a :=
  instantiate_writeData layoutConfig layoutExample layoutExample_aligned layoutExample_wellFormed
    (by decide) (by decide) (by decide +kernel)

end UosioCdt.Link
