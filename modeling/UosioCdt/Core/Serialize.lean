import UosioCdt.Core.Asset
import UosioCdt.Core.FixedBytes
import UosioCdt.Core.Varint
import Mathlib.Data.Fin.Tuple.Basic

/-!
# The datastream operators

`Ty` is the language of the serializable types, `Ty.Val` their values. `Ty.writes` are the calls of
`write` that `operator<<` makes, `Ty.read` is `operator>>` into a destination that already has a
value: containers are resized and read in place, while pairs, sets, maps and the payloads of
`optional`, `variant` and `binary_extension` are read into fresh temporaries.
-/

namespace UosioCdt.Core

open LittleEndian

/-! ## Types -/

/-- The primitive types: integers and enumerations of some bytes, and `bool`. -/
inductive Prim where
  | int (bytes : ℕ)
  | bool

/-- The containers that are resized and read element by element. -/
inductive SeqKind where
  | vector
  | list
  | deque

/-- The serializable types. A tuple or the fields of a class are the first field and the others
(`empty`, `field`); `aggregate` is a class with these fields, told from others by its number. -/
inductive Ty where
  | prim (p : Prim)
  | unsignedInt
  | signedInt
  | string
  | bytes
  | seq (kind : SeqKind) (elem : Ty)
  | set (elem : Ty)
  | map (key value : Ty)
  | array (elem : Ty) (n : ℕ)
  | cArray (elem : Ty) (n : UInt32)
  | cArrayPrim (p : Prim) (n : UInt32)
  | optional (elem : Ty)
  | variant (n : ℕ) (alts : Fin (n + 1) → Ty)
  | pair (first second : Ty)
  | empty
  | field (first rest : Ty)
  | aggregate (id : ℕ) (fields : Ty)
  | name
  | symbolCode
  | symbol
  | asset
  | extendedAsset
  | publicKey
  | signature
  | fixedBytes (size : ℕ)
  | binaryExtension (elem : Ty)

/-! ## Values -/

/-- `symbol_code` -/
structure SymbolCode where
  value : UInt64
deriving DecidableEq, Repr

/-- `public_key` -/
structure PublicKey where
  type : UInt32
  data : Fin 33 → UInt8

/-- `signature` -/
structure Signature where
  type : UInt32
  data : Fin 65 → UInt8

/-- The values of a primitive type. -/
def Prim.Val : Prim → Type
  | .int n => BitVec (8 * n)
  | .bool => Bool

/-- The values of a type. Sets and maps are lists in the order of their keys. -/
def Ty.Val : Ty → Type
  | .prim p => p.Val
  | .unsignedInt => UInt32
  | .signedInt => BitVec 32
  | .string => List UInt8
  | .bytes => List UInt8
  | .seq _ t => List t.Val
  | .set t => List t.Val
  | .map k v => List (k.Val × v.Val)
  | .array t n => Fin n → t.Val
  | .cArray t n => Fin n.toNat → t.Val
  | .cArrayPrim p n => Fin n.toNat → p.Val
  | .optional t => Option t.Val
  | .variant n alts => Σ i : Fin (n + 1), (alts i).Val
  | .pair a b => a.Val × b.Val
  | .empty => Unit
  | .field a rest => a.Val × rest.Val
  | .aggregate _ fields => fields.Val
  | .name => Name
  | .symbolCode => SymbolCode
  | .symbol => Symbol
  | .asset => Asset
  | .extendedAsset => ExtendedAsset
  | .publicKey => PublicKey
  | .signature => Signature
  | .fixedBytes size => FixedBytes size
  | .binaryExtension t => Option t.Val

/-- A primitive value of zeros. The source leaves a default constructed primitive undefined. -/
def Prim.zero : (p : Prim) → p.Val
  | .int _ => 0#_
  | .bool => false

/-- The default constructor. -/
def Ty.default : (t : Ty) → t.Val
  | .prim p => p.zero
  | .unsignedInt => (0 : UInt32)
  | .signedInt => 0#32
  | .string => ([] : List UInt8)
  | .bytes => ([] : List UInt8)
  | .seq _ t => ([] : List t.Val)
  | .set t => ([] : List t.Val)
  | .map k v => ([] : List (k.Val × v.Val))
  | .array t _ => fun _ => t.default
  | .cArray t _ => fun _ => t.default
  | .cArrayPrim p _ => fun _ => p.zero
  | .optional t => (none : Option t.Val)
  | .variant _ alts => ⟨0, (alts 0).default⟩
  | .pair a b => (a.default, b.default)
  | .empty => ()
  | .field a rest => (a.default, rest.default)
  | .aggregate _ fields => fields.default
  | .name => (⟨0⟩ : Name)
  | .symbolCode => (⟨0⟩ : SymbolCode)
  | .symbol => (⟨0⟩ : Symbol)
  | .asset => (⟨0, ⟨0⟩⟩ : Asset)
  | .extendedAsset => (⟨⟨0, ⟨0⟩⟩, ⟨0⟩⟩ : ExtendedAsset)
  | .publicKey => (⟨0, fun _ => 0⟩ : PublicKey)
  | .signature => (⟨0, fun _ => 0⟩ : Signature)
  | .fixedBytes size => FixedBytes.zero size
  | .binaryExtension t => (none : Option t.Val)

/-! ## Writing -/

/-- The bytes of a primitive value in memory. -/
def Prim.bytes : (p : Prim) → p.Val → List UInt8
  | .int n, v => toBytes n (BitVec.toNat v)
  | .bool, (v : Bool) => [if v then 1 else 0]

/-- `ds << unsigned_int(n)`: one `write` for each byte. -/
def sizeWrites (n : ℕ) : List (List UInt8) :=
  (Varint.writeUnsigned (UInt32.ofNat n)).map fun b => [b]

/-- `ds << raw`, for a 64-bit integer. -/
def wordWrites (raw : BitVec 64) : List (List UInt8) := [toBytes 8 raw.toNat]

/-- `operator<<` of `asset` -/
def Asset.writes (a : Asset) : List (List UInt8) :=
  wordWrites a.amount ++ wordWrites a.symbol.value.toBitVec

/-- `operator<<` -/
def Ty.writes : (t : Ty) → t.Val → List (List UInt8)
  | .prim p, v => [p.bytes v]
  | .unsignedInt, v => (Varint.writeUnsigned v).map fun b => [b]
  | .signedInt, v => (Varint.writeSigned v).map fun b => [b]
  | .string, (v : List UInt8) => sizeWrites v.length ++ if v.length ≠ 0 then [v] else []
  | .bytes, (v : List UInt8) => sizeWrites v.length ++ [v]
  | .seq _ t, (v : List t.Val) => sizeWrites v.length ++ v.flatMap t.writes
  | .set t, (v : List t.Val) => sizeWrites v.length ++ v.flatMap t.writes
  | .map k v, (m : List (k.Val × v.Val)) =>
    sizeWrites m.length ++ m.flatMap fun i => k.writes i.1 ++ v.writes i.2
  | .array t _, (v : Fin _ → t.Val) => (List.ofFn v).flatMap t.writes
  | .cArray t n, (v : Fin n.toNat → t.Val) =>
    sizeWrites n.toNat ++ (List.ofFn v).flatMap t.writes
  | .cArrayPrim p n, (v : Fin n.toNat → p.Val) =>
    sizeWrites n.toNat ++ [(List.ofFn v).flatMap p.bytes]
  | .optional t, (v : Option t.Val) =>
    match v with
    | some x => [1] :: t.writes x
    | none => [[0]]
  | .variant _ alts, (v : Σ i : Fin _, (alts i).Val) =>
    sizeWrites v.1 ++ (alts v.1).writes v.2
  | .pair a b, (v : a.Val × b.Val) => a.writes v.1 ++ b.writes v.2
  | .empty, _ => []
  | .field a rest, (v : a.Val × rest.Val) => a.writes v.1 ++ rest.writes v.2
  | .aggregate _ fields, v => fields.writes v
  | .name, (v : Name) => wordWrites v.value.toBitVec
  | .symbolCode, (v : SymbolCode) => wordWrites v.value.toBitVec
  | .symbol, (v : Symbol) => wordWrites v.value.toBitVec
  | .asset, (v : Asset) => v.writes
  | .extendedAsset, (v : ExtendedAsset) =>
    v.quantity.writes ++ wordWrites v.contract.value.toBitVec
  | .publicKey, (v : PublicKey) =>
    (Varint.writeUnsigned v.type).map (fun b => [b]) ++ [List.ofFn v.data]
  | .signature, (v : Signature) =>
    (Varint.writeUnsigned v.type).map (fun b => [b]) ++ [List.ofFn v.data]
  | .fixedBytes _, (v : FixedBytes _) => [v.extractAsByteArray]
  | .binaryExtension t, (v : Option t.Val) => t.writes (v.getD t.default)

/-- The bytes of a value. -/
def Ty.serialize (t : Ty) (v : t.Val) : List UInt8 := (t.writes v).flatten

/-! ## Reading -/

/-- `ds.read(p, n)` -/
def readBytes (n : ℕ) : Reader (List UInt8) := fun bs =>
  if bs.length ≥ n then some (bs.take n, bs.drop n) else none

/-- `ds.remaining()` -/
def remaining : Reader ℕ := fun bs => some (bs.length, bs)

/-- `ds >> s` of an `unsigned_int` -/
def readSize : Reader ℕ := do
  let s ← Varint.readUnsigned
  return s.toNat

/-- `uosio::check` -/
def checkThat (c : Bool) : Reader Unit := fun bs => if c then some ((), bs) else none

def readWord : Reader (BitVec 64) := do
  let bs ← readBytes 8
  return BitVec.ofNat 64 (ofBytes bs)

/-- The primitive value with these bytes in memory. -/
def Prim.ofBytes : (p : Prim) → List UInt8 → p.Val
  | .int n, bs => BitVec.ofNat (8 * n) (LittleEndian.ofBytes bs)
  | .bool, bs => decide (LittleEndian.ofBytes bs ≠ 0)

/-- `sizeof` -/
def Prim.size : Prim → ℕ
  | .int n => n
  | .bool => 1

def Prim.read (p : Prim) : Reader p.Val := do
  let bs ← readBytes p.size
  return p.ofBytes bs

/-- `resize` of a container. -/
def resize {α : Type} (n : ℕ) (dflt : α) (old : List α) : List α :=
  old.take n ++ List.replicate (n - old.length) dflt

/-- `for (auto& i : l) ds >> i` -/
def readEach {α : Type} (read : α → Reader α) : List α → Reader (List α)
  | [] => return []
  | x :: xs => do
    let x ← read x
    let xs ← readEach read xs
    return x :: xs

/-- The same loop over an array. -/
def readArray {α : Type} (read : α → Reader α) : (n : ℕ) → (Fin n → α) → Reader (Fin n → α)
  | 0, v => return v
  | n + 1, v => do
    let x ← read (v 0)
    let xs ← readArray read n (Fin.tail v)
    return Fin.cons x xs

/-- `emplace` of a set or map in the order `lt`: an equivalent element keeps its place. -/
def emplace {α : Type} (lt : α → α → Bool) (x : α) : List α → List α
  | [] => [x]
  | y :: ys => if lt y x then y :: emplace lt x ys else if lt x y then x :: y :: ys else y :: ys

/-- The loop that reads `n` elements and emplaces them. -/
def readEmplace {α : Type} (lt : α → α → Bool) (read : Reader α) :
    ℕ → List α → Reader (List α)
  | 0, s => return s
  | n + 1, s => do
    let x ← read
    readEmplace lt read n (emplace lt x s)

/-- The array that a list of its size fills. -/
def arrayOf {α : Type} (n : ℕ) (dflt : α) (l : List α) : Fin n → α := fun i => l.getD i dflt

def Asset.read : Reader Asset := do
  let amount ← readWord
  let raw ← readWord
  return ⟨amount, ⟨⟨raw⟩⟩⟩

/-- `deserialize<0>`, `deserialize<1>`, …: the alternative whose number is the index as an `int`. -/
def deserialize {n : ℕ} {β : Fin n → Type} (read : (i : Fin n) → Reader (β i)) (index : UInt32) :
    Reader (Σ i, β i) :=
  match (List.finRange n).find? fun i : Fin n =>
      decide (((i : ℕ) : ℤ) = index.toBitVec.toInt) with
  | some i => do
    let x ← read i
    return ⟨i, x⟩
  | none => failure

/-- The order of the keys of sets and maps, `operator<` of their type. -/
abbrev KeyOrder := (t : Ty) → t.Val → t.Val → Bool

/-- `operator>>` into a destination with a value. -/
def Ty.read (lt : KeyOrder) : (t : Ty) → t.Val → Reader t.Val
  | .prim p, _ => p.read
  | .unsignedInt, _ => Varint.readUnsigned
  | .signedInt, _ => Varint.readSigned
  | .string, _ => do
    let s ← readSize
    readBytes s
  | .bytes, _ => do
    let s ← readSize
    readBytes s
  | .seq _ t, (v : List t.Val) => do
    let s ← readSize
    readEach (t.read lt) (resize s t.default v)
  | .set t, _ => do
    let s ← readSize
    readEmplace (lt t) (t.read lt t.default) s []
  | .map k v, _ => do
    let s ← readSize
    let entry : Reader (k.Val × v.Val) := do
      let key ← k.read lt k.default
      let value ← v.read lt v.default
      return (key, value)
    readEmplace (fun x y => lt k x.1 y.1) entry s []
  | .array t n, (v : Fin n → t.Val) => readArray (t.read lt) n v
  | .cArray t n, (v : Fin n.toNat → t.Val) => do
    let s ← readSize
    checkThat (n.toNat = s)
    readArray (t.read lt) n.toNat v
  | .cArrayPrim p n, _ => do
    let s ← readSize
    checkThat (n.toNat = s)
    let bs ← readBytes (n.toNat * p.size)
    return fun i : Fin n.toNat => p.ofBytes ((bs.drop (i * p.size)).take p.size)
  | .optional t, (v : Option t.Val) => do
    let valid ← readBytes 1
    -- a cleared flag writes nothing
    if valid = [0] then return v
    else do
      let x ← t.read lt t.default
      return some x
  | .variant _ alts, _ => do
    let index ← Varint.readUnsigned
    deserialize (fun i => (alts i).read lt (alts i).default) index
  | .pair a b, _ => do
    let x ← a.read lt a.default
    let y ← b.read lt b.default
    return (x, y)
  | .empty, _ => return ()
  | .field a rest, (v : a.Val × rest.Val) => do
    let x ← a.read lt v.1
    let xs ← rest.read lt v.2
    return (x, xs)
  | .aggregate _ fields, v => fields.read lt v
  | .name, _ => do
    let raw ← readWord
    return (⟨⟨raw⟩⟩ : Name)
  | .symbolCode, _ => do
    let raw ← readWord
    return (⟨⟨raw⟩⟩ : SymbolCode)
  | .symbol, _ => do
    let raw ← readWord
    return (⟨⟨raw⟩⟩ : Symbol)
  | .asset, _ => Asset.read
  | .extendedAsset, _ => do
    let quantity ← Asset.read
    let raw ← readWord
    return (⟨quantity, ⟨⟨raw⟩⟩⟩ : ExtendedAsset)
  | .publicKey, _ => do
    let type ← Varint.readUnsigned
    let bs ← readBytes 33
    return (⟨type, arrayOf 33 0 bs⟩ : PublicKey)
  | .signature, _ => do
    let type ← Varint.readUnsigned
    let bs ← readBytes 65
    return (⟨type, arrayOf 65 0 bs⟩ : Signature)
  | .fixedBytes size, _ => fun bs =>
    if h : bs.length ≥ size then
      some (FixedBytes.ofByteArray (bs.take size) (List.length_take_of_le h), bs.drop size)
    else none
  | .binaryExtension t, (v : Option t.Val) => do
    -- at the end of the stream nothing is written
    if (← remaining) ≠ 0 then do
      let x ← t.read lt t.default
      return some x
    else return v

/-- `unpack<T>` -/
def Ty.unpack (lt : KeyOrder) (t : Ty) (buffer : List UInt8) : Option t.Val :=
  (t.read lt t.default buffer).map Prod.fst

/-! ## `pack` -/

/-- `pack_size`: the calls of `write` counted in a 32-bit `size_t`. -/
def packSize (writes : List (List UInt8)) : UInt32 :=
  writes.foldl (fun size w => size + UInt32.ofNat w.length) 0

/-- The calls of `write` into a buffer of `cap` bytes, behind the bytes written before. The check
compares the space left as `int32_t`. -/
def packInto (cap : UInt32) : List (List UInt8) → List UInt8 → Option (List UInt8)
  | [], written => some written
  | w :: ws, written =>
    if (UInt32.ofNat w.length).toBitVec.sle (cap - UInt32.ofNat written.length).toBitVec then
      packInto cap ws (written ++ w)
    else none

/-- `pack`: a buffer of `pack_size` bytes, written from its start. -/
def Ty.pack (t : Ty) (v : t.Val) : Option (List UInt8) := do
  let cap := packSize (t.writes v)
  let written ← packInto cap (t.writes v) []
  return written ++ List.replicate (cap.toNat - written.length) 0

end UosioCdt.Core
