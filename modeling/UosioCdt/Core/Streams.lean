import UosioCdt.Core.DatastreamTheorems
import UosioCdt.Core.RoundTrip

/-!
# The size pass and the write pass

The operators `<<` are templates over the stream: `Ty.put` is `ds << v` for any stream with a
`write`. `datastream<size_t>` counts the bytes, `datastream<char*>` checks and copies them. Both make
the same calls of `write` (`Ty.put_eq`), so the buffer that `pack` allocates is filled to its end.
-/

namespace UosioCdt.Core

/-! ## Streaming a value -/

section put

variable {σ : Type} (write : σ → List UInt8 → Option σ)

/-- `operator<<` of `unsigned_int` and `signed_int`: one byte after another. -/
def putGroups : List UInt8 → σ → Option σ
  | [], ds => some ds
  | b :: bs, ds => do
    let ds ← write ds [b]
    putGroups bs ds

/-- `ds << unsigned_int(n)` -/
def putSize (n : ℕ) : σ → Option σ := putGroups write (Varint.writeUnsigned (UInt32.ofNat n))

/-- `for (const auto& i : v) ds << i` -/
def putEach {α : Type} (put : α → σ → Option σ) : List α → σ → Option σ
  | [], ds => some ds
  | x :: xs, ds => do
    let ds ← put x ds
    putEach put xs ds

/-- `ds << raw`, for a 64-bit integer. -/
def putWord (raw : BitVec 64) (ds : σ) : Option σ := write ds (LittleEndian.toBytes 8 raw.toNat)

/-- `operator<<` of `asset` -/
def putAsset (a : Asset) (ds : σ) : Option σ := do
  let ds ← putWord write a.amount ds
  putWord write a.symbol.value.toBitVec ds

/-- `operator<<` into a stream with this `write`. -/
def Ty.put : (t : Ty) → t.Val → σ → Option σ
  | .prim p, v, ds => write ds (p.bytes v)
  | .unsignedInt, v, ds => putGroups write (Varint.writeUnsigned v) ds
  | .signedInt, v, ds => putGroups write (Varint.writeSigned v) ds
  | .string, (v : List UInt8), ds => do
    let ds ← putSize write v.length ds
    if v.length ≠ 0 then write ds v else some ds
  | .bytes, (v : List UInt8), ds => do
    let ds ← putSize write v.length ds
    write ds v
  | .seq _ t, (v : List t.Val), ds => do
    let ds ← putSize write v.length ds
    putEach t.put v ds
  | .set t, (v : List t.Val), ds => do
    let ds ← putSize write v.length ds
    putEach t.put v ds
  | .map k v, (m : List (k.Val × v.Val)), ds => do
    let ds ← putSize write m.length ds
    putEach (fun i ds => do
      let ds ← k.put i.1 ds
      v.put i.2 ds) m ds
  | .array t _, (v : Fin _ → t.Val), ds => putEach t.put (List.ofFn v) ds
  | .cArray t n, (v : Fin n.toNat → t.Val), ds => do
    let ds ← putSize write n.toNat ds
    putEach t.put (List.ofFn v) ds
  | .cArrayPrim p n, (v : Fin n.toNat → p.Val), ds => do
    let ds ← putSize write n.toNat ds
    -- the whole array at once
    write ds ((List.ofFn v).flatMap p.bytes)
  | .optional t, (v : Option t.Val), ds =>
    match v with
    | some x => do
      let ds ← write ds [1]
      t.put x ds
    | none => write ds [0]
  | .variant _ alts, (v : Σ i : Fin _, (alts i).Val), ds => do
    let ds ← putSize write v.1 ds
    (alts v.1).put v.2 ds
  | .pair a b, (v : a.Val × b.Val), ds => do
    let ds ← a.put v.1 ds
    b.put v.2 ds
  | .empty, _, ds => some ds
  | .field a rest, (v : a.Val × rest.Val), ds => do
    let ds ← a.put v.1 ds
    rest.put v.2 ds
  | .aggregate _ fields, v, ds => fields.put v ds
  | .name, (v : Name), ds => putWord write v.value.toBitVec ds
  | .symbolCode, (v : SymbolCode), ds => putWord write v.value.toBitVec ds
  | .symbol, (v : Symbol), ds => putWord write v.value.toBitVec ds
  | .asset, (v : Asset), ds => putAsset write v ds
  | .extendedAsset, (v : ExtendedAsset), ds => do
    let ds ← putAsset write v.quantity ds
    putWord write v.contract.value.toBitVec ds
  | .publicKey, (v : PublicKey), ds => do
    let ds ← putGroups write (Varint.writeUnsigned v.type) ds
    write ds (List.ofFn v.data)
  | .signature, (v : Signature), ds => do
    let ds ← putGroups write (Varint.writeUnsigned v.type) ds
    write ds (List.ofFn v.data)
  | .fixedBytes _, (v : FixedBytes _), ds => write ds v.extractAsByteArray
  | .binaryExtension t, (v : Option t.Val), ds => t.put (v.getD t.default) ds

/-! ## The calls of `write` -/

/-- The calls one after another. -/
def writeAll (ws : List (List UInt8)) (ds : σ) : Option σ := ws.foldlM write ds

variable {write}

lemma writeAll_singleton (w : List UInt8) (ds : σ) : writeAll write [w] ds = write ds w := by
  show (write ds w).bind some = write ds w
  exact Option.bind_fun_some _

/-- The calls of two passes. -/
lemma writeAll_append (ws us : List (List UInt8)) (ds : σ) :
    writeAll write (ws ++ us) ds = (writeAll write ws ds).bind (writeAll write us) :=
  List.foldlM_append

lemma putGroups_eq (bs : List UInt8) (ds : σ) :
    putGroups write bs ds = writeAll write (bs.map fun b => [b]) ds := by
  induction bs generalizing ds with
  | nil => rfl
  | cons b bs ih =>
    show (write ds [b]).bind (putGroups write bs) = _
    rw [funext ih]
    rfl

/-- A loop makes the calls of its elements. -/
lemma putEach_eq {α : Type} {put : α → σ → Option σ} {writes : α → List (List UInt8)}
    (h : ∀ x ds, put x ds = writeAll write (writes x) ds) (xs : List α) (ds : σ) :
    putEach put xs ds = writeAll write (xs.flatMap writes) ds := by
  induction xs generalizing ds with
  | nil => rfl
  | cons x xs ih =>
    show (put x ds).bind (putEach put xs) = _
    rw [List.flatMap_cons, writeAll_append, h, funext ih]

/-- One operator behind another. -/
lemma put_append {f g : σ → Option σ} {ws us : List (List UInt8)}
    (hf : ∀ ds, f ds = writeAll write ws ds) (hg : ∀ ds, g ds = writeAll write us ds) (ds : σ) :
    (f ds >>= g) = writeAll write (ws ++ us) ds := by
  rw [writeAll_append, hf, funext hg]
  rfl

lemma putWord_eq (raw : BitVec 64) (ds : σ) :
    putWord write raw ds = writeAll write (wordWrites raw) ds :=
  (writeAll_singleton _ ds).symm

lemma putAsset_eq (a : Asset) (ds : σ) : putAsset write a ds = writeAll write a.writes ds :=
  put_append (putWord_eq a.amount) (putWord_eq a.symbol.value.toBitVec) ds

/-- Streaming a value makes the same calls of `write` on every stream. -/
theorem Ty.put_eq (t : Ty) (v : t.Val) (ds : σ) :
    t.put write v ds = writeAll write (t.writes v) ds := by
  induction t generalizing ds with
  | prim p => exact (writeAll_singleton _ ds).symm
  | unsignedInt => exact putGroups_eq _ ds
  | signedInt => exact putGroups_eq _ ds
  | string =>
    refine put_append (putGroups_eq _) (fun ds => ?_) ds
    split
    · exact (writeAll_singleton _ ds).symm
    · rfl
  | bytes => exact put_append (putGroups_eq _) (fun ds => (writeAll_singleton _ ds).symm) ds
  | seq kind t ih => exact put_append (putGroups_eq _) (putEach_eq ih v) ds
  | set t ih => exact put_append (putGroups_eq _) (putEach_eq ih v) ds
  | map k t ihk iht =>
    have hentry : ∀ (i : k.Val × t.Val) (ds : σ), (k.put write i.1 ds >>= t.put write i.2)
        = writeAll write (k.writes i.1 ++ t.writes i.2) ds :=
      fun i => put_append (ihk i.1) (iht i.2)
    exact put_append (putGroups_eq _) (putEach_eq hentry v) ds
  | array t n ih => exact putEach_eq ih (List.ofFn v) ds
  | cArray t n ih => exact put_append (putGroups_eq _) (putEach_eq ih (List.ofFn v)) ds
  | cArrayPrim p n => exact put_append (putGroups_eq _) (fun ds => (writeAll_singleton _ ds).symm) ds
  | optional t ih =>
    cases v with
    | none => exact (writeAll_singleton _ ds).symm
    | some x =>
      exact put_append (fun ds => (writeAll_singleton [1] ds).symm) (ih x) ds
  | variant n alts ih => exact put_append (putGroups_eq _) (ih v.1 v.2) ds
  | pair a b iha ihb => exact put_append (iha v.1) (ihb v.2) ds
  | empty => rfl
  | field a rest iha ihr => exact put_append (iha v.1) (ihr v.2) ds
  | aggregate id fields ih => exact ih v ds
  | name => exact putWord_eq _ ds
  | symbolCode => exact putWord_eq _ ds
  | symbol => exact putWord_eq _ ds
  | asset => exact putAsset_eq v ds
  | extendedAsset => exact put_append (putAsset_eq v.quantity) (putWord_eq _) ds
  | publicKey => exact put_append (putGroups_eq _) (fun ds => (writeAll_singleton _ ds).symm) ds
  | signature => exact put_append (putGroups_eq _) (fun ds => (writeAll_singleton _ ds).symm) ds
  | fixedBytes size => exact (writeAll_singleton _ ds).symm
  | binaryExtension t ih => exact ih _ ds

end put

/-! ## The two streams -/

/-- `datastream<size_t>` -/
structure SizeStream where
  size : UInt32
deriving DecidableEq, Repr

namespace SizeStream

/-- The constructor. -/
def mk' : SizeStream := ⟨0⟩

def skip (ds : SizeStream) (s : UInt32) : SizeStream := ⟨ds.size + s⟩

/-- `write` behaves as `skip`. -/
def write (ds : SizeStream) (bs : List UInt8) : Option SizeStream :=
  some (ds.skip (UInt32.ofNat bs.length))

def tellp (ds : SizeStream) : UInt32 := ds.size

end SizeStream

/-- The `n` bytes from an address on. -/
def Mem.bytes (mem : Mem) (d n : UInt32) : List UInt8 :=
  (List.range n.toNat).map fun i => mem (d + UInt32.ofNat i)

/-- The memory with some bytes written. -/
def Mem.storeBytes (mem : Mem) (dst : UInt32) (bs : List UInt8) : Mem := fun a =>
  bs.getD (a - dst).toNat (mem a)

/-- `write` of a `datastream<char*>`, from a source with these bytes. -/
def Datastream.writeBytes (s : Datastream × Mem) (bs : List UInt8) : Option (Datastream × Mem) :=
  if (UInt32.ofNat bs.length).toBitVec.sle (s.1.end_ - s.1.pos).toBitVec then
    some ({ s.1 with pos := s.1.pos + UInt32.ofNat bs.length }, s.2.storeBytes s.1.pos bs)
  else none

lemma Mem.length_bytes (mem : Mem) (d n : UInt32) : (mem.bytes d n).length = n.toNat := by
  rw [Mem.bytes, List.length_map, List.length_range]

lemma Mem.getD_bytes (mem : Mem) (d n : UInt32) (i : ℕ) (dflt : UInt8) :
    (mem.bytes d n).getD i dflt = if i < n.toNat then mem (d + UInt32.ofNat i) else dflt := by
  split
  · rename_i hi
    rw [List.getD_eq_getElem _ _ (by rwa [mem.length_bytes])]
    simp [Mem.bytes]
  · rename_i hi
    exact List.getD_eq_default _ _ (by rw [mem.length_bytes]; omega)

/-! ## The size pass -/

/-- The size pass adds up the lengths. -/
lemma writeAll_size (ws : List (List UInt8)) (ds : SizeStream) :
    writeAll SizeStream.write ws ds
      = some ⟨ws.foldl (fun size w => size + UInt32.ofNat w.length) ds.size⟩ := by
  induction ws generalizing ds with
  | nil => rfl
  | cons w ws ih => exact ih (ds.skip (UInt32.ofNat w.length))

/-- `pack_size` is the position of the size stream behind the value. -/
theorem Ty.put_size (t : Ty) (v : t.Val) :
    t.put SizeStream.write v .mk' = some ⟨packSize (t.writes v)⟩ := by
  rw [t.put_eq, writeAll_size]
  rfl

/-! ## The write pass -/

section fills

variable {b : Buffer} {mem : Mem}

/-- The stream behind some bytes of the buffer. -/
def Buffer.streamAt (b : Buffer) (n : ℕ) : Datastream :=
  ⟨b.start, b.start + UInt32.ofNat n, b.start + b.len⟩

/-- Bytes written behind others. -/
lemma Mem.storeBytes_append (mem : Mem) (dst : UInt32) (bs cs : List UInt8)
    (h : bs.length + cs.length < 2 ^ 32) :
    (mem.storeBytes dst bs).storeBytes (dst + UInt32.ofNat bs.length) cs
      = mem.storeBytes dst (bs ++ cs) := by
  funext a
  -- in front of the second bytes the distance wraps around, past their end
  have hsub : (a - (dst + UInt32.ofNat bs.length)).toNat
      = if bs.length ≤ (a - dst).toNat then (a - dst).toNat - bs.length
        else 2 ^ 32 + (a - dst).toNat - bs.length := by
    have hlen : (UInt32.ofNat bs.length).toNat = bs.length := by
      rw [UInt32.toNat_ofNat', Nat.mod_eq_of_lt (by omega)]
    have hsplit : a - (dst + UInt32.ofNat bs.length) = a - dst - UInt32.ofNat bs.length := by
      grind
    rw [hsplit, toNat_sub', hlen]
  unfold Mem.storeBytes
  rw [hsub]
  split
  · rename_i hle
    rw [List.getD_append_right _ _ _ _ hle, List.getD_eq_default bs _ hle]
  · rename_i hlt
    rw [List.getD_append _ _ _ _ (by omega), List.getD_eq_default cs _ (by omega)]

/-- A call of `write` that fits passes its check. -/
lemma writeBytes_streamAt (hlen : b.len.toNat < 2 ^ 31) {done w : List UInt8}
    (h : done.length + w.length ≤ b.len.toNat) :
    Datastream.writeBytes (b.streamAt done.length, mem.storeBytes b.start done) w
      = some (b.streamAt (done ++ w).length, mem.storeBytes b.start (done ++ w)) := by
  have hw : (UInt32.ofNat w.length).toNat = w.length := by
    rw [UInt32.toNat_ofNat', Nat.mod_eq_of_lt (by omega)]
  have hleft : (b.start + b.len - (b.start + UInt32.ofNat done.length)).toNat
      = b.len.toNat - done.length := by
    have hsplit : b.start + b.len - (b.start + UInt32.ofNat done.length)
        = b.len - UInt32.ofNat done.length := by
      grind
    rw [hsplit, toNat_sub', UInt32.toNat_ofNat', Nat.mod_eq_of_lt (by omega), if_pos (by omega)]
  -- both sides of the signed comparison are below 2 ^ 31
  have hcheck : (UInt32.ofNat w.length).toBitVec.sle
      (b.start + b.len - (b.start + UInt32.ofNat done.length)).toBitVec = true := by
    rw [BitVec.sle_iff_toInt_le, BitVec.toInt_eq_toNat_cond, BitVec.toInt_eq_toNat_cond,
      UInt32.toNat_toBitVec, UInt32.toNat_toBitVec, hw, hleft]
    split <;> split <;> omega
  have hpos : b.start + UInt32.ofNat done.length + UInt32.ofNat w.length
      = b.start + UInt32.ofNat (done ++ w).length := by
    rw [List.length_append, UInt32.ofNat_add, UInt32.add_assoc]
  show (if (UInt32.ofNat w.length).toBitVec.sle
      (b.start + b.len - (b.start + UInt32.ofNat done.length)).toBitVec = true then _ else _) = _
  rw [if_pos hcheck]
  show some ((⟨b.start, b.start + UInt32.ofNat done.length + UInt32.ofNat w.length,
    b.start + b.len⟩ : Datastream), (mem.storeBytes b.start done).storeBytes
      (b.start + UInt32.ofNat done.length) w) = _
  rw [hpos, mem.storeBytes_append _ _ _ (by omega)]
  rfl

/-- The write pass fills the buffer as far as its bytes go. -/
lemma writeAll_streamAt (hlen : b.len.toNat < 2 ^ 31) {ws : List (List UInt8)} {done : List UInt8}
    (h : done.length + ws.flatten.length ≤ b.len.toNat) :
    writeAll Datastream.writeBytes ws (b.streamAt done.length, mem.storeBytes b.start done)
      = some (b.streamAt (done ++ ws.flatten).length,
          mem.storeBytes b.start (done ++ ws.flatten)) := by
  induction ws generalizing done with
  | nil => simp [writeAll]
  | cons w ws ih =>
    rw [List.flatten_cons, List.length_append] at h
    show (Datastream.writeBytes _ w).bind (writeAll Datastream.writeBytes ws) = _
    -- what is written so far grows by the bytes of the call
    rw [writeBytes_streamAt hlen (by omega), Option.bind_some,
      ih (by rw [List.length_append]; omega), List.flatten_cons, List.append_assoc]

/-- Streaming a value into a buffer of its size fills the buffer. -/
theorem Ty.put_writeBytes {t : Ty} {v : t.Val} (h : (t.serialize v).length < 2 ^ 31)
    (hb : b.len.toNat = (t.serialize v).length) :
    t.put Datastream.writeBytes v (b.stream, mem)
      = some (b.streamAt b.len.toNat, mem.storeBytes b.start (t.serialize v)) := by
  have hall : writeAll Datastream.writeBytes (t.writes v)
      (b.streamAt ([] : List UInt8).length, mem.storeBytes b.start [])
      = some (b.streamAt ([] ++ (t.writes v).flatten).length,
          mem.storeBytes b.start ([] ++ (t.writes v).flatten)) := by
    apply writeAll_streamAt (by omega)
    rw [hb, List.length_nil, Nat.zero_add]
    exact Nat.le_refl _
  have hstart : b.streamAt ([] : List UInt8).length = b.stream := by
    show (⟨b.start, b.start + 0, b.start + b.len⟩ : Datastream) = ⟨b.start, b.start, b.start + b.len⟩
    rw [UInt32.add_zero]
  rw [hstart, List.nil_append] at hall
  rw [t.put_eq, hb]
  exact hall

end fills

/-! ## `pack` -/

/-- A buffer that holds the written bytes. -/
lemma Mem.bytes_storeBytes (mem : Mem) (dst n : UInt32) {bs : List UInt8}
    (h : n.toNat = bs.length) : (mem.storeBytes dst bs).bytes dst n = bs := by
  apply List.ext_getElem
  · rw [Mem.length_bytes, h]
  · intro i hi hbs
    have hn : n.toNat < 2 ^ 32 := n.toNat_lt
    have hoffset : (dst + UInt32.ofNat i - dst).toNat = i := by
      rw [UInt32.add_comm, UInt32.add_sub_cancel, UInt32.toNat_ofNat', Nat.mod_eq_of_lt (by omega)]
    have hbyte := (mem.storeBytes dst bs).getD_bytes dst n i 0
    rw [List.getD_eq_getElem _ _ hi, if_pos (by omega)] at hbyte
    rw [hbyte, Mem.storeBytes, hoffset, List.getD_eq_getElem _ _ hbs]

/-- The size pass counts the bytes of a value. Into every buffer of that size the write pass passes
all checks, ends at the end, and leaves its bytes there and everything else as it was. So `pack` gives
the bytes and no others. -/
theorem Ty.pack_fills (t : Ty) (v : t.Val) (h : (t.serialize v).length < 2 ^ 31) :
    ∃ ps, t.put SizeStream.write v .mk' = some ps ∧ ps.tellp.toNat = (t.serialize v).length ∧
      (∀ (b : Buffer) (mem : Mem), b.len = ps.tellp → ∃ ds mem',
        t.put Datastream.writeBytes v (b.stream, mem) = some (ds, mem') ∧
          ds.tellp = ps.tellp ∧ ds.remaining = 0 ∧ mem'.bytes b.start b.len = t.serialize v ∧
          ∀ a, ¬ a - b.start < b.len → mem' a = mem a) ∧
      t.pack v = some (t.serialize v) := by
  have hsize : (packSize (t.writes v)).toNat = (t.serialize v).length := toNat_packSize h
  refine ⟨⟨packSize (t.writes v)⟩, t.put_size v, hsize, fun b mem hlen => ?_, pack_eq h⟩
  have hb : b.len.toNat = (t.serialize v).length := by
    rw [hlen]
    exact hsize
  refine ⟨_, _, put_writeBytes h hb, ?_, ?_, mem.bytes_storeBytes _ _ hb, fun a ha => ?_⟩
  · show b.start + UInt32.ofNat b.len.toNat - b.start = _
    rw [UInt32.ofNat_toNat, UInt32.add_comm, UInt32.add_sub_cancel, hlen]
  · show b.start + b.len - (b.start + UInt32.ofNat b.len.toNat) = 0
    rw [UInt32.ofNat_toNat, UInt32.sub_self]
  · -- behind the value nothing is stored
    rw [UInt32.lt_iff_toNat_lt, hb] at ha
    exact List.getD_eq_default _ _ (by omega)

/-- A vector of optional sets has a size and fills its buffer. -/
theorem Ty.pack_fills_nested :
    ∃ ps, nestedTy.put SizeStream.write nestedVal .mk' = some ps ∧
      ps.tellp.toNat = (nestedTy.serialize nestedVal).length ∧
      (∀ (b : Buffer) (mem : Mem), b.len = ps.tellp → ∃ ds mem',
        nestedTy.put Datastream.writeBytes nestedVal (b.stream, mem) = some (ds, mem') ∧
          ds.tellp = ps.tellp ∧ ds.remaining = 0 ∧
          mem'.bytes b.start b.len = nestedTy.serialize nestedVal ∧
          ∀ a, ¬ a - b.start < b.len → mem' a = mem a) ∧
      nestedTy.pack nestedVal = some (nestedTy.serialize nestedVal) :=
  Ty.pack_fills nestedTy nestedVal (by decide)

end UosioCdt.Core
