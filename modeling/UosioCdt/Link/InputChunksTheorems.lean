import UosioCdt.Link.InputChunks

/-!
# Theorems: the code section

A function is read as its size and then, between the numbers of its relocations, the bytes of the
object file (`readFunction`). Both ways to write a function give the same reading with the new values
(`items`), and the functions can write their parts of the section in any order.
-/

namespace UosioCdt.Link

open BlockWrites Leb128

/-! ## Reading a function -/

/-- What stands in a function: some bytes, or a number of 32 bits. -/
inductive Shape where
  | raw (n : ℕ)
  | leb
  | sleb

/-- What is read there. -/
inductive Item where
  | raw (bytes : List UInt8)
  | leb (n : ℕ)
  | sleb (v : ℤ)

def readItem : Shape → List UInt8 → Option (Item × List UInt8)
  | .raw n, bs => if n ≤ bs.length then some (.raw (bs.take n), bs.drop n) else none
  | .leb, bs => (decodeU 32 bs).map fun p => (.leb p.1, p.2)
  | .sleb, bs => (decodeS 32 bs).map fun p => (.sleb p.1, p.2)

def readItems : List Shape → List UInt8 → Option (List Item × List UInt8)
  | [], bs => some ([], bs)
  | shape :: shapes, bs => do
    let (item, bs) ← readItem shape bs
    let (items, bs) ← readItems shapes bs
    return (item :: items, bs)

/-- The size, and a body of this size with nothing left over. -/
def readFunction (shapes : List Shape) (bs : List UInt8) : Option (List Item × List UInt8) := do
  let (n, bs) ← decodeU 32 bs
  if n ≤ bs.length then
    match readItems shapes (bs.take n) with
    | some (items, []) => some (items, bs.drop n)
    | _ => none
  else none

def readFunctions : List (List Shape) → List UInt8 → Option (List (List Item) × List UInt8)
  | [], bs => some ([], bs)
  | shapes :: rest, bs => do
    let (items, bs) ← readFunction shapes bs
    let (others, bs) ← readFunctions rest bs
    return (items :: others, bs)

/-- The count, and as many functions with nothing left over. -/
def readCode (functions : List (List Shape)) (bs : List UInt8) : Option (List (List Item)) := do
  let (n, bs) ← decodeU 32 bs
  if n = functions.length then
    match readFunctions functions bs with
    | some (items, []) => some items
    | _ => none
  else none

lemma readItems_append {shapes : List Shape} {shape : Shape} {item : Item} {items : List Item}
    {bs cs rest : List UInt8} (h : readItem shape (bs ++ (cs ++ rest)) = some (item, cs ++ rest))
    (hrest : readItems shapes (cs ++ rest) = some (items, rest)) :
    readItems (shape :: shapes) (bs ++ cs ++ rest) = some (item :: items, rest) := by
  rw [List.append_assoc]
  change (readItem shape (bs ++ (cs ++ rest))).bind _ = _
  rw [h]
  change (readItems shapes (cs ++ rest)).bind _ = _
  rw [hrest]
  rfl

lemma readItem_raw (bs rest : List UInt8) :
    readItem (.raw bs.length) (bs ++ rest) = some (.raw bs, rest) := by
  rw [readItem, if_pos (by simp), List.take_left, List.drop_left]

/-- Between a size and the bytes behind the body. -/
lemma readFunction_of_body {shapes : List Shape} {items : List Item} {pre body : List UInt8}
    (hpre : ∀ rest, decodeU 32 (pre ++ rest) = some (body.length, rest))
    (hbody : readItems shapes body = some (items, [])) (rest : List UInt8) :
    readFunction shapes (pre ++ body ++ rest) = some (items, rest) := by
  rw [List.append_assoc, readFunction, hpre]
  simp only [Option.bind_eq_bind, Option.bind_some, List.length_append, Nat.le_add_right, if_true,
    List.take_left, List.drop_left, hbody]

/-! ## What a function says -/

/-- The kind of number at a relocation. -/
def WasmRelocation.shape (rel : WasmRelocation) : Shape :=
  if rel.kind = .sleb then .sleb else .leb

/-- The new number at a relocation. -/
def WasmRelocation.item (rel : WasmRelocation) (value : UInt32) : Item :=
  if rel.kind = .sleb then .sleb (signed value) else .leb value.toNat

/-- The places of the relocations with something put there. -/
def patches (new : WasmRelocation → List UInt8) (rels : List WasmRelocation) : List (Patch UInt8) :=
  rels.map fun rel => ⟨rel.offset, relocWidthPadded, new rel⟩

namespace ObjFunction

variable (f : ObjFunction)

/-- The parts of the body behind `lastRelocEnd`. -/
def shapesFrom : ℕ → List WasmRelocation → List Shape
  | lastRelocEnd, [] => [.raw (f.stop - lastRelocEnd)]
  | lastRelocEnd, rel :: rels =>
    .raw (rel.offset - lastRelocEnd) :: rel.shape ::
      shapesFrom (rel.offset + relocWidthPadded) rels

/-- The same parts with the bytes of the object file and the new values. -/
def itemsFrom : ℕ → List WasmRelocation → List Item
  | lastRelocEnd, [] => [.raw ((f.content.drop lastRelocEnd).take (f.stop - lastRelocEnd))]
  | lastRelocEnd, rel :: rels =>
    .raw ((f.content.drop lastRelocEnd).take (rel.offset - lastRelocEnd)) ::
      rel.item (f.calcNewValue rel) :: itemsFrom (rel.offset + relocWidthPadded) rels

/-- What an object file promises of a function: it lies in the section and begins with its size, and
its relocations are padded numbers of the body, in order and apart. -/
structure WellFormed : Prop where
  fits : f.stop ≤ f.content.length
  size_lt : f.size < 2 ^ 32
  size_eq : decodeU 32 (f.content.drop f.codeSectionOffset)
    = some (f.size - f.sizeLength, f.content.drop f.bodyStart)
  ordered : Ordered f.bodyStart (patches (fun _ => []) f.relocations) f.stop
  kind_ne : ∀ rel ∈ f.relocations, rel.kind ≠ .i32

end ObjFunction

namespace InputFunction

def shapes : InputFunction → List Shape
  | object f => f.shapesFrom f.bodyStart f.relocations
  | synthetic body => [.raw (body.length - (groups body).length)]

def items : InputFunction → List Item
  | object f => f.itemsFrom f.bodyStart f.relocations
  | synthetic body => [.raw (body.drop (groups body).length)]

/-- Where the function begins in the section of its object file. -/
def inputOffset : InputFunction → ℕ
  | object f => f.codeSectionOffset
  | synthetic _ => 0

/-- A synthetic function begins with its size, too. -/
def WellFormed : InputFunction → Prop
  | object f => f.WellFormed
  | synthetic body => ∃ rest, decodeU 32 body = some (rest.length, rest)

end InputFunction

/-! ## Numbers -/

/-- A number is read from its groups alone. -/
lemma decodeU_groups {N n : ℕ} {bs rest : List UInt8} (h : decodeU N bs = some (n, rest)) :
    bs = groups bs ++ rest ∧ ∀ cs, decodeU N (groups bs ++ cs) = some (n, cs) := by
  induction bs generalizing N n with
  | nil => cases h
  | cons b bs ih =>
    rw [decodeU] at h
    by_cases hb : b.toNat < 128
    · rw [if_pos hb] at h
      split at h
      · rename_i hN
        obtain ⟨rfl, rfl⟩ := Prod.mk.inj (Option.some.inj h)
        rw [groups, if_pos hb]
        refine ⟨rfl, fun cs => ?_⟩
        rw [List.singleton_append, decodeU, if_pos hb, if_pos hN]
      · cases h
    · rw [if_neg hb] at h
      split at h
      · rename_i hN
        obtain ⟨p, hp, heq⟩ := Option.map_eq_some_iff.mp h
        obtain ⟨rfl, rfl⟩ := Prod.mk.inj heq
        obtain ⟨hsplit, hread⟩ := ih hp
        rw [groups, if_neg hb]
        refine ⟨congrArg (b :: ·) hsplit, fun cs => ?_⟩
        rw [List.cons_append, decodeU, if_neg hb, if_pos hN, hread]
        rfl
      · cases h

/-- The signed value is in its range. -/
lemma signed_bounds (value : UInt32) : -(2 ^ (32 - 1) : ℤ) ≤ signed value ∧
    signed value < 2 ^ (32 - 1) := by
  have hlo := BitVec.le_two_mul_toInt (x := value.toBitVec)
  have hhi := BitVec.two_mul_toInt_lt (x := value.toBitVec)
  unfold signed
  omega

section reloc

variable {rel : WasmRelocation}

/-- Both encodings of a number are read as it. -/
lemma readItem_paddedReloc (h : rel.kind ≠ .i32) (value : UInt32) (rest : List UInt8) :
    readItem rel.shape (paddedReloc rel value ++ rest) = some (rel.item value, rest) := by
  have hlt : value.toNat < 2 ^ 32 := value.toNat_lt
  obtain ⟨hlo, hhi⟩ := signed_bounds value
  unfold paddedReloc WasmRelocation.shape WasmRelocation.item
  cases hkind : rel.kind with
  | leb => simp [readItem, decodeU_padU hlt (show 7 * (5 - 1) < 32 by decide)]
  | sleb => simp [readItem, decodeS_padS hlo hhi (fun _ => show 7 * (5 - 1) + 1 < 32 by decide)]
  | i32 => exact absurd hkind h

lemma readItem_compressedReloc (h : rel.kind ≠ .i32) (value : UInt32) (rest : List UInt8) :
    readItem rel.shape (compressedReloc rel value ++ rest) = some (rel.item value, rest) := by
  have hlt : value.toNat < 2 ^ 32 := value.toNat_lt
  obtain ⟨hlo, hhi⟩ := signed_bounds value
  unfold compressedReloc WasmRelocation.shape WasmRelocation.item
  cases hkind : rel.kind with
  | leb => simp [readItem, decodeU_encodeU hlt]
  | sleb => simp [readItem, decodeS_encodeS hlo hhi]
  | i32 => exact absurd hkind h

lemma length_paddedReloc (h : rel.kind ≠ .i32) (value : UInt32) :
    (paddedReloc rel value).length = relocWidthPadded := by
  have hlt : value.toNat < 2 ^ 32 := value.toNat_lt
  obtain ⟨hlo, hhi⟩ := signed_bounds value
  unfold paddedReloc
  cases hkind : rel.kind with
  | leb => exact length_padU (by decide) (hlt.trans (by decide))
  | sleb => exact length_padS (by decide) (by norm_num at hlo ⊢; omega) (by norm_num at hhi ⊢; omega)
  | i32 => exact absurd hkind h

lemma length_compressedReloc (h : rel.kind ≠ .i32) (value : UInt32) :
    (compressedReloc rel value).length ≤ relocWidthPadded := by
  have hlt : value.toNat < 2 ^ 32 := value.toNat_lt
  obtain ⟨hlo, hhi⟩ := signed_bounds value
  unfold compressedReloc relocWidthPadded
  cases hkind : rel.kind with
  | leb => exact (length_encodeU_le_iff (by decide)).mpr (hlt.trans (by decide))
  | sleb => exact length_encodeS_le (by decide) (by norm_num at hlo ⊢; omega) (by norm_num at hhi ⊢; omega)
  | i32 => exact absurd hkind h

end reloc

/-! ## Places below 2 GiB -/

lemma place_ofNat {n : ℕ} (h : n < 2 ^ 31) : place (Int32.ofNat n).toInt = some n := by
  rw [Int32.toInt_ofNat_of_lt h]
  exact if_pos (Int.natCast_nonneg n)

lemma mapM_some {α β : Type} {f : α → Option β} {g : α → β} {l : List α}
    (h : ∀ x ∈ l, f x = some (g x)) : l.mapM f = some (l.map g) := by
  induction l with
  | nil => rfl
  | cons x l ih =>
    rw [List.mapM_cons, h x List.mem_cons_self, ih fun y hy => h y (List.mem_cons_of_mem _ hy)]
    rfl

/-- The writes of a chunk at a place of the section. -/
def InputChunk.writesAt (c : InputChunk) (pos : ℕ) : List (Write UInt8) :=
  ⟨pos, c.data⟩ :: c.relocations.map fun rel =>
    ⟨pos + (rel.offset - c.inputSectionOffset), paddedReloc rel (c.calcNewValue rel)⟩

/-- Below 2 GiB no offset wraps. -/
lemma InputChunk.writes_eq {c : InputChunk} {pos : ℕ} (hpos : pos < 2 ^ 31)
    (hinput : c.inputSectionOffset < 2 ^ 31)
    (hrels : ∀ rel ∈ c.relocations, c.inputSectionOffset ≤ rel.offset) :
    c.writes (Int32.ofNat pos) = some (c.writesAt pos) := by
  have hoff : (Int32.ofNat pos - Int32.ofNat c.inputSectionOffset).toInt
      = pos - c.inputSectionOffset := by
    rw [Int32.toInt_sub, Int32.toInt_ofNat_of_lt hpos, Int32.toInt_ofNat_of_lt hinput, Int.bmod_def]
    omega
  have hloc : ∀ rel ∈ c.relocations,
      place (rel.offset + (Int32.ofNat pos - Int32.ofNat c.inputSectionOffset).toInt)
        = some (pos + (rel.offset - c.inputSectionOffset)) := by
    intro rel hrel
    have hle := hrels rel hrel
    rw [hoff, place, if_pos (by omega)]
    exact congrArg some (by omega)
  unfold writes writesAt
  rw [place_ofNat hpos]
  simp only [Option.bind_eq_bind, Option.bind_some]
  rw [mapM_some fun rel hrel => by rw [hloc rel hrel]; rfl]
  rfl

/-! ## One function -/

/-- The cells in front of the first relocation, what is put in its place, and the others. -/
lemma splice_patches_cons (new : WasmRelocation → List UInt8) (cells : List UInt8)
    (last stop : ℕ) (rel : WasmRelocation) (rels : List WasmRelocation) :
    splice cells last (patches new (rel :: rels)) stop
      = (cells.drop last).take (rel.offset - last) ++ (new rel ++
        splice cells (rel.offset + relocWidthPadded) (patches new rels) stop) :=
  List.append_assoc _ _ _

lemma ordered_patches_cons {new : WasmRelocation → List UInt8} {last stop : ℕ}
    {rel : WasmRelocation} {rels : List WasmRelocation}
    (h : Ordered last (patches new (rel :: rels)) stop) :
    last ≤ rel.offset ∧ rel.offset ≤ stop ∧
      Ordered (rel.offset + relocWidthPadded) (patches new rels) stop := by
  have hle := Ordered.le h.2
  simp only at hle
  exact ⟨h.1, by omega, h.2⟩

namespace ObjFunction

variable {f : ObjFunction} {last : ℕ} {rels : List WasmRelocation}
  {new : WasmRelocation → List UInt8}

/-- Between the patches the bytes are those of the object file. -/
lemma readItems_splice (hread : ∀ rel ∈ rels, ∀ rest, readItem rel.shape (new rel ++ rest)
      = some (rel.item (f.calcNewValue rel), rest))
    (h : Ordered last (patches new rels) f.stop) (hfits : f.stop ≤ f.content.length)
    (rest : List UInt8) :
    readItems (f.shapesFrom last rels) (splice f.content last (patches new rels) f.stop ++ rest)
      = some (f.itemsFrom last rels, rest) := by
  induction rels generalizing last with
  | nil =>
    have hraw := readItem_raw ((f.content.drop last).take (f.stop - last)) rest
    rw [length_gap hfits] at hraw
    change (readItem _ ((f.content.drop last).take (f.stop - last) ++ rest)).bind _ = _
    rw [hraw]
    rfl
  | cons rel rels ih =>
    obtain ⟨hpos, hstop, hrest⟩ := ordered_patches_cons h
    have hraw := readItem_raw ((f.content.drop last).take (rel.offset - last))
    rw [length_gap (hstop.trans hfits)] at hraw
    have htail := ih (fun r hr => hread r (List.mem_cons_of_mem _ hr)) hrest
    rw [splice_patches_cons]
    exact readItems_append (hraw _) (readItems_append (hread rel List.mem_cons_self _) htail)

/-- What the compressed function has at its relocations. -/
def compressed (f : ObjFunction) (rel : WasmRelocation) : List UInt8 :=
  compressedReloc rel (f.calcNewValue rel)

/-- What the other one has there. -/
def padded (f : ObjFunction) (rel : WasmRelocation) : List UInt8 :=
  paddedReloc rel (f.calcNewValue rel)

/-- `calculateSize` counts the bytes that `writeTo` writes. -/
lemma compressedRegions_eq (h : Ordered last (patches f.compressed rels) f.stop)
    (hfits : f.stop ≤ f.content.length) : f.compressedRegions last rels
      = (splice f.content last (patches f.compressed rels) f.stop).length := by
  induction rels generalizing last with
  | nil =>
    have hle : last ≤ f.stop := h
    rw [patches, List.map_nil, splice, length_gap hfits, compressedRegions]
    omega
  | cons rel rels ih =>
    obtain ⟨hpos, hstop, hrest⟩ := ordered_patches_cons h
    rw [splice_patches_cons, compressedRegions, ih hrest, List.length_append, List.length_append,
      length_gap (hstop.trans hfits), compressed]
    omega

/-- The compressed writes follow each other. -/
lemma compressedChunks_eq (buf : ℕ) (h : Ordered last (patches f.compressed rels) f.stop)
    (hfits : f.stop ≤ f.content.length) :
    (f.compressedChunks buf last rels).flatMap Write.cells
        = splice f.content last (patches f.compressed rels) f.stop ∧
      Consecutive buf (f.compressedChunks buf last rels)
        (buf + (splice f.content last (patches f.compressed rels) f.stop).length) := by
  induction rels generalizing last buf with
  | nil => exact ⟨List.append_nil _, rfl, rfl⟩
  | cons rel rels ih =>
    obtain ⟨hpos, hstop, hrest⟩ := ordered_patches_cons h
    have hgap := length_gap (a := last) (hstop.trans hfits)
    obtain ⟨hcells, hconsecutive⟩ :=
      ih (buf + (rel.offset - last) + (f.compressed rel).length) hrest
    rw [splice_patches_cons]
    constructor
    · rw [compressedChunks, List.flatMap_cons, List.flatMap_cons]
      exact congrArg (_ ++ ·) (congrArg (_ ++ ·) hcells)
    · rw [List.length_append, List.length_append, hgap, ← Nat.add_assoc, ← Nat.add_assoc]
      refine ⟨rfl, ?_, ?_⟩
      · unfold Write.stop
        rw [hgap]
      · exact hconsecutive

/-- The compressed writes at a place of the section. -/
def compressedWritesAt (f : ObjFunction) (pos : ℕ) : List (Write UInt8) :=
  ⟨pos, encodeU f.compressedFuncSize⟩ ::
    f.compressedChunks (pos + (encodeU f.compressedFuncSize).length) f.bodyStart f.relocations

/-- The bytes that a function has in the section. -/
def bytes (f : ObjFunction) (compressRelocTargets : Bool) : List UInt8 :=
  if compressRelocTargets then
    encodeU f.compressedFuncSize ++
      splice f.content f.bodyStart (patches f.compressed f.relocations) f.stop
  else
    groups (f.content.drop f.codeSectionOffset) ++
      splice f.content f.bodyStart (patches f.padded f.relocations) f.stop

section wellFormed

variable (h : f.WellFormed)

include h

lemma ordered_patches (new : WasmRelocation → List UInt8) :
    Ordered f.bodyStart (patches new f.relocations) f.stop := ordered_map h.ordered

lemma length_padded : (splice f.content f.bodyStart (patches f.padded f.relocations) f.stop).length
    = f.size - f.sizeLength := by
  rw [length_splice_eq (ordered_patches h f.padded) h.fits]
  · unfold stop bodyStart
    omega
  · intro p hp
    obtain ⟨rel, hrel, rfl⟩ := List.mem_map.mp hp
    exact length_paddedReloc (h.kind_ne rel hrel) _

/-- The counted size is that of the compressed body. -/
lemma compressedFuncSize_eq : f.compressedFuncSize
      = (splice f.content f.bodyStart (patches f.compressed f.relocations) f.stop).length ∧
    f.compressedFuncSize < 2 ^ 32 := by
  have hle : (splice f.content f.bodyStart (patches f.compressed f.relocations) f.stop).length
      ≤ f.size := by
    have hlen := length_splice_le (ordered_patches h f.compressed) h.fits fun p hp => by
      obtain ⟨rel, hrel, rfl⟩ := List.mem_map.mp hp
      exact length_compressedReloc (h.kind_ne rel hrel) _
    unfold stop bodyStart at hlen
    unfold stop bodyStart
    omega
  have hlt := h.size_lt
  rw [compressedFuncSize, compressedRegions_eq (ordered_patches h f.compressed) h.fits]
  omega

/-- The bytes in front of the body. -/
lemma take_sizeLength : (f.content.drop f.codeSectionOffset).take f.sizeLength
    = groups (f.content.drop f.codeSectionOffset) ∧ f.sizeLength ≤ f.size := by
  obtain ⟨hsplit, -⟩ := decodeU_groups h.size_eq
  constructor
  · conv_lhs => rw [hsplit]
    exact List.take_left
  · have hstop := (ordered_patches h f.padded).le
    unfold stop bodyStart at hstop
    omega

lemma compressedWrites_fill (pos : ℕ) :
    Fills (f.compressedWritesAt pos) ⟨pos, f.bytes true⟩ := by
  obtain ⟨hcells, hconsecutive⟩ := compressedChunks_eq
    (pos + (encodeU f.compressedFuncSize).length) (ordered_patches h f.compressed) h.fits
  refine fills_consecutive ⟨rfl, ?_⟩ ?_
  · unfold Write.stop
    rw [bytes, if_pos rfl, List.length_append, ← Nat.add_assoc]
    exact hconsecutive
  · rw [compressedWritesAt, List.flatMap_cons, hcells, bytes, if_pos rfl]

lemma chunkWrites_fill (pos : ℕ) :
    Fills (f.chunk.writesAt pos) ⟨pos, f.bytes false⟩ := by
  have hordered := ordered_patches h f.padded
  obtain ⟨hgroups, hlength⟩ := take_sizeLength h
  have hfits := h.fits
  have hdata : f.data.length = f.size := by
    rw [data, List.length_take, List.length_drop]
    unfold stop at hfits
    omega
  have hbody := length_padded h
  have hstart : (groups (f.content.drop f.codeSectionOffset)).length = f.sizeLength := rfl
  have hbytes : (f.bytes false).length = f.size := by
    rw [bytes, if_neg Bool.false_ne_true, List.length_append, hbody, hstart]
    omega
  have hwhole : Ordered f.codeSectionOffset (patches f.padded f.relocations) f.stop :=
    ordered_mono (Nat.le_add_right _ _) hordered
  constructor
  · intro v hv
    rcases List.mem_cons.mp hv with rfl | hv
    · simp only [Write.stop, chunk, hdata, hbytes]
      omega
    · obtain ⟨rel, hrel, rfl⟩ := List.mem_map.mp hv
      have hbounds := hwhole.bounds _ (List.mem_map_of_mem hrel)
      have hwidth := length_paddedReloc (h.kind_ne rel hrel) (f.calcNewValue rel)
      simp only [Write.stop, chunk, hbytes, hwidth]
      simp only [stop] at hbounds
      omega
  · intro m
    have hcopy : slice ((⟨pos, f.data⟩ : Write UInt8).apply m)
        (pos + (f.codeSectionOffset - f.codeSectionOffset)) (f.stop - f.codeSectionOffset)
        = (f.content.drop f.codeSectionOffset).take (f.stop - f.codeSectionOffset) := by
      have hself := slice_apply (⟨pos, f.data⟩ : Write UInt8) m
      simp only [hdata] at hself
      rw [Nat.sub_self, Nat.add_zero, stop, Nat.add_sub_cancel_left, hself, data]
    have hover := slice_overwrite le_rfl hwhole (fun p hp => by
      obtain ⟨rel, hrel, rfl⟩ := List.mem_map.mp hp
      exact length_paddedReloc (h.kind_ne rel hrel) _) hcopy
    rw [Nat.sub_self, Nat.add_zero, splice_prepend (Nat.le_add_right _ f.sizeLength) hordered,
      Nat.add_sub_cancel_left, hgroups, stop, Nat.add_sub_cancel_left] at hover
    rw [hbytes, bytes, if_neg Bool.false_ne_true]
    rw [patches, List.map_map] at hover
    exact hover

/-- Both ways to write the function are read alike. -/
lemma readFunction_bytes (compressRelocTargets : Bool) (rest : List UInt8) :
    readFunction (f.shapesFrom f.bodyStart f.relocations) (f.bytes compressRelocTargets ++ rest)
      = some (f.itemsFrom f.bodyStart f.relocations, rest) := by
  cases compressRelocTargets with
  | true =>
    obtain ⟨hsize, hlt⟩ := compressedFuncSize_eq h
    refine readFunction_of_body (fun cs => ?_) ?_ rest
    · rw [← hsize]
      exact decodeU_encodeU hlt cs
    · have hread := readItems_splice (f := f) (fun rel hrel cs =>
        readItem_compressedReloc (h.kind_ne rel hrel) (f.calcNewValue rel) cs)
        (ordered_patches h f.compressed) h.fits []
      rwa [List.append_nil] at hread
  | false =>
    refine readFunction_of_body (fun cs => ?_) ?_ rest
    · rw [length_padded h]
      exact (decodeU_groups h.size_eq).2 cs
    · have hread := readItems_splice (f := f) (fun rel hrel cs =>
        readItem_paddedReloc (h.kind_ne rel hrel) (f.calcNewValue rel) cs)
        (ordered_patches h f.padded) h.fits []
      rwa [List.append_nil] at hread

end wellFormed

end ObjFunction

namespace InputFunction

variable {func : InputFunction}

/-- The writes of a function at a place of the section. -/
def writesAt (compressRelocTargets : Bool) (pos : ℕ) : InputFunction → List (Write UInt8)
  | object f => if compressRelocTargets then f.compressedWritesAt pos else f.chunk.writesAt pos
  | synthetic body => [⟨pos, body⟩]

lemma writes_eq (h : func.WellFormed) (hinput : func.inputOffset < 2 ^ 31)
    (compressRelocTargets : Bool) {pos : ℕ} (hpos : pos < 2 ^ 31) :
    func.writes compressRelocTargets (Int32.ofNat pos)
      = some (func.writesAt compressRelocTargets pos) := by
  cases func with
  | synthetic body =>
    unfold writes writesAt
    rw [place_ofNat hpos]
    rfl
  | object f =>
    have hf : f.WellFormed := h
    cases compressRelocTargets with
    | true =>
      unfold writes writesAt ObjFunction.compressedWrites
      rw [place_ofNat hpos]
      rfl
    | false =>
      have hwhole : Ordered f.codeSectionOffset (patches f.padded f.relocations) f.stop :=
        ordered_mono (Nat.le_add_right _ _) (ObjFunction.ordered_patches hf f.padded)
      exact InputChunk.writes_eq hpos hinput fun rel hrel =>
        (hwhole.bounds _ (List.mem_map_of_mem hrel)).1

def bytes (compressRelocTargets : Bool) : InputFunction → List UInt8
  | object f => f.bytes compressRelocTargets
  | synthetic body => body

lemma getSize_eq (h : func.WellFormed) (compressRelocTargets : Bool) :
    func.getSize compressRelocTargets = (func.bytes compressRelocTargets).length := by
  cases func with
  | synthetic body => rfl
  | object f =>
    have hf : f.WellFormed := h
    cases compressRelocTargets with
    | true =>
      rw [getSize, if_pos rfl, bytes, ObjFunction.bytes, if_pos rfl, List.length_append,
        ObjFunction.compressedSize, ← (ObjFunction.compressedFuncSize_eq hf).1, Nat.add_comm]
    | false =>
      obtain ⟨-, hlength⟩ := ObjFunction.take_sizeLength hf
      have hfits := hf.fits
      have hstart : (groups (f.content.drop f.codeSectionOffset)).length = f.sizeLength := rfl
      rw [getSize, if_neg Bool.false_ne_true, bytes, ObjFunction.bytes, if_neg Bool.false_ne_true,
        List.length_append, ObjFunction.length_padded hf, hstart, ObjFunction.data,
        List.length_take, List.length_drop]
      unfold ObjFunction.stop at hfits
      omega

lemma writes_fill (h : func.WellFormed) (compressRelocTargets : Bool) (pos : ℕ) :
    Fills (func.writesAt compressRelocTargets pos) ⟨pos, func.bytes compressRelocTargets⟩ := by
  cases func with
  | synthetic body => exact fills_singleton _
  | object f =>
    have hf : f.WellFormed := h
    cases compressRelocTargets with
    | true => exact ObjFunction.compressedWrites_fill hf pos
    | false => exact ObjFunction.chunkWrites_fill hf pos

lemma readFunction_bytes (h : func.WellFormed) (compressRelocTargets : Bool)
    (rest : List UInt8) : readFunction func.shapes (func.bytes compressRelocTargets ++ rest)
      = some (func.items, rest) := by
  cases func with
  | object f => exact ObjFunction.readFunction_bytes (show f.WellFormed from h) _ rest
  | synthetic body =>
    obtain ⟨inner, hinner⟩ := h
    obtain ⟨hsplit, hread⟩ := decodeU_groups hinner
    have hdrop : body.drop (groups body).length = inner :=
      (congrArg (List.drop (groups body).length) hsplit).trans List.drop_left
    have hlen : body.length - (groups body).length = inner.length := by
      rw [← hdrop, List.length_drop]
    have hraw := readItem_raw inner []
    rw [List.append_nil] at hraw
    have hbody : readItems [.raw inner.length] inner = some ([.raw inner], []) := by
      change (readItem _ _).bind _ = _
      rw [hraw]
      rfl
    have hfunction := readFunction_of_body hread hbody rest
    rw [← hsplit] at hfunction
    rw [shapes, items, hdrop, hlen]
    exact hfunction

end InputFunction

/-! ## The section -/

section codeSection

variable {functions : List InputFunction} (compressRelocTargets : Bool)

/-- The functions with their places in the section. -/
def functionPlaces : ℕ → List InputFunction → List (ℕ × InputFunction)
  | _, [] => []
  | start, func :: functions =>
    (start, func) :: functionPlaces (start + func.getSize compressRelocTargets) functions

/-- What the functions write there. -/
def functionWritesAt (functions : List InputFunction) : List (List (Write UInt8)) :=
  (functionPlaces compressRelocTargets (codeSectionHeader functions).length functions).map
    fun placed => placed.2.writesAt compressRelocTargets placed.1

/-- The parts of the section that the functions fill. -/
def blocks (start : ℕ) (functions : List InputFunction) : List (Write UInt8) :=
  (functionPlaces compressRelocTargets start functions).map fun placed =>
    ⟨placed.1, placed.2.bytes compressRelocTargets⟩

lemma le_bodySize (start : ℕ) (functions : List InputFunction) :
    start ≤ functions.foldl (fun size func => size + func.getSize compressRelocTargets) start := by
  induction functions generalizing start with
  | nil => exact le_rfl
  | cons func functions ih => exact (Nat.le_add_right _ _).trans (ih _)

/-- Every function has a byte at least. -/
lemma length_le_bodySize (h : ∀ func ∈ functions, func.WellFormed) (start : ℕ) :
    start + functions.length
      ≤ functions.foldl (fun size func => size + func.getSize compressRelocTargets) start := by
  induction functions generalizing start with
  | nil => exact le_rfl
  | cons func functions ih =>
    have hfunc := h func List.mem_cons_self
    have hpos : 0 < func.getSize compressRelocTargets := by
      rw [InputFunction.getSize_eq hfunc]
      refine List.length_pos_iff.mpr fun hnil => ?_
      have hread := InputFunction.readFunction_bytes hfunc compressRelocTargets []
      rw [hnil] at hread
      cases hread
    have hrest := ih (fun f hf => h f (List.mem_cons_of_mem _ hf))
      (start + func.getSize compressRelocTargets)
    rw [List.foldl_cons, List.length_cons]
    omega

/-- In a section below 2 GiB the offsets are the places. -/
lemma functionWrites_eq (h : ∀ func ∈ functions, func.WellFormed)
    (hinput : ∀ func ∈ functions, func.inputOffset < 2 ^ 31)
    (hsize : bodySize compressRelocTargets functions < 2 ^ 31) :
    functionWrites compressRelocTargets functions
      = some (functionWritesAt compressRelocTargets functions) := by
  unfold functionWrites functionWritesAt
  unfold bodySize at hsize
  generalize (codeSectionHeader functions).length = start at hsize ⊢
  induction functions generalizing start with
  | nil => rfl
  | cons func functions ih =>
    have hpos := (Nat.le_add_right start (func.getSize compressRelocTargets)).trans
      (le_bodySize compressRelocTargets _ functions)
    unfold placeFunctions functionPlaces
    rw [List.mapM_cons, InputFunction.writes_eq (h func List.mem_cons_self)
      (hinput func List.mem_cons_self) _ (hpos.trans_lt hsize),
      ih (fun f hf => h f (List.mem_cons_of_mem _ hf))
        (fun f hf => hinput f (List.mem_cons_of_mem _ hf)) _ hsize]
    rfl

lemma blocks_consecutive (h : ∀ func ∈ functions, func.WellFormed) (start : ℕ) :
    Consecutive start (blocks compressRelocTargets start functions)
      (functions.foldl (fun size func => size + func.getSize compressRelocTargets) start) ∧
    (blocks compressRelocTargets start functions).flatMap Write.cells
      = functions.flatMap (InputFunction.bytes compressRelocTargets) := by
  induction functions generalizing start with
  | nil => exact ⟨rfl, rfl⟩
  | cons func functions ih =>
    obtain ⟨hconsecutive, hcells⟩ := ih (fun f hf => h f (List.mem_cons_of_mem _ hf))
      (start + func.getSize compressRelocTargets)
    refine ⟨⟨rfl, ?_⟩, ?_⟩
    · unfold Write.stop
      rw [← InputFunction.getSize_eq (h func List.mem_cons_self)]
      exact hconsecutive
    · exact congrArg (_ ++ ·) hcells

lemma functionWrites_fill (h : ∀ func ∈ functions, func.WellFormed) :
    List.Forall₂ Fills (functionWritesAt compressRelocTargets functions)
      (blocks compressRelocTargets (codeSectionHeader functions).length functions) := by
  unfold functionWritesAt blocks
  generalize (codeSectionHeader functions).length = start
  induction functions generalizing start with
  | nil => exact .nil
  | cons func functions ih =>
    exact .cons (InputFunction.writes_fill (h func List.mem_cons_self) _ _)
      (ih (fun f hf => h f (List.mem_cons_of_mem _ hf)) _)

lemma readFunctions_bytes (h : ∀ func ∈ functions, func.WellFormed) (rest : List UInt8) :
    readFunctions (functions.map InputFunction.shapes)
      (functions.flatMap (InputFunction.bytes compressRelocTargets) ++ rest)
        = some (functions.map InputFunction.items, rest) := by
  induction functions with
  | nil => rfl
  | cons func functions ih =>
    rw [List.flatMap_cons, List.append_assoc]
    change (readFunction _ _).bind _ = _
    rw [InputFunction.readFunction_bytes (h func List.mem_cons_self)]
    change (readFunctions _ _).bind _ = _
    rw [ih fun f hf => h f (List.mem_cons_of_mem _ hf)]
    rfl

/-- The section is the count and the functions, in whatever order their parts are written. -/
lemma writeCode_eq (h : ∀ func ∈ functions, func.WellFormed) {order : List (Write UInt8)}
    (horder : Interleaves (functionWritesAt compressRelocTargets functions) order)
    (buf : ℕ → UInt8) : writeCode compressRelocTargets functions order buf
      = codeSectionHeader functions ++
        functions.flatMap (InputFunction.bytes compressRelocTargets) := by
  obtain ⟨hconsecutive, hcells⟩ := blocks_consecutive compressRelocTargets h
    (codeSectionHeader functions).length
  have hall : Consecutive 0 (⟨0, codeSectionHeader functions⟩ ::
      blocks compressRelocTargets (codeSectionHeader functions).length functions)
      (bodySize compressRelocTargets functions) := by
    refine ⟨rfl, ?_⟩
    unfold Write.stop
    rw [Nat.zero_add]
    exact hconsecutive
  rw [writeCode, writeAll_of_fills (functionWrites_fill compressRelocTargets h)
    hconsecutive.apart horder]
  have hslice := slice_writeAll_consecutive hall buf
  rw [Nat.sub_zero, List.flatMap_cons, hcells] at hslice
  exact hslice

end codeSection

/-- Written with padded numbers or compressed, and with the functions written at the same time in any
way, a code section below 2 GiB is read as the functions of the object files with the new values of
their relocations. -/
theorem readCode_writeCode (compressRelocTargets : Bool) (functions : List InputFunction)
    (h : ∀ func ∈ functions, func.WellFormed)
    (hinput : ∀ func ∈ functions, func.inputOffset < 2 ^ 31)
    (hsize : bodySize compressRelocTargets functions < 2 ^ 31) :
    ∃ writers, functionWrites compressRelocTargets functions = some writers ∧
      ∀ order, Interleaves writers order → ∀ buf,
        readCode (functions.map InputFunction.shapes)
          (writeCode compressRelocTargets functions order buf)
            = some (functions.map InputFunction.items) := by
  refine ⟨_, functionWrites_eq compressRelocTargets h hinput hsize, fun order horder buf => ?_⟩
  have hread := readFunctions_bytes compressRelocTargets h []
  rw [List.append_nil] at hread
  have hcount : functions.length < 2 ^ 32 := by
    have hle := length_le_bodySize compressRelocTargets h (codeSectionHeader functions).length
    unfold bodySize at hsize
    omega
  rw [writeCode_eq compressRelocTargets h horder, readCode, codeSectionHeader,
    decodeU_encodeU hcount]
  simp only [Option.bind_eq_bind, Option.bind_some, List.length_map, if_true, hread]

/-- A function that calls the function 7, and an empty one of the linker. -/
def callFunctions : List InputFunction :=
  [.object {
    content := [0x08, 0x00, 0x10, 0x80, 0x80, 0x80, 0x80, 0x00, 0x0b]
    codeSectionOffset := 0
    size := 9
    relocations := [⟨⟨.functionIndexLeb, 0⟩, 3, 0⟩]
    calcNewValue := fun _ => 7 }, .synthetic [0x02, 0x00, 0x0b]]

lemma wellFormed_callFunctions : ∀ func ∈ callFunctions, func.WellFormed := by
  intro func hfunc
  rcases List.mem_pair.mp hfunc with rfl | rfl
  · exact ⟨by decide, by decide, by decide, ⟨by decide, (by decide : 8 ≤ 9)⟩, by decide⟩
  · exact ⟨[0x00, 0x0b], by decide⟩

theorem readCode_writeCode_call :
    ∃ writers, functionWrites true callFunctions = some writers ∧
      ∀ order, Interleaves writers order → ∀ buf,
        readCode (callFunctions.map InputFunction.shapes) (writeCode true callFunctions order buf)
          = some [[.raw [0x00, 0x10], .leb 7, .raw [0x0b]], [.raw [0x00, 0x0b]]] :=
  readCode_writeCode true callFunctions wellFormed_callFunctions (by decide) (by decide +kernel)

end UosioCdt.Link
