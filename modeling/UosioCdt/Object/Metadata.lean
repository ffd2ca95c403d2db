import UosioCdt.Lib.Framing
import UosioCdt.Lib.Leb128

/-!
# Link metadata in an object file

The sections that `WebAssemblyAsmPrinter::EmitEndOfAsmFile` fills for the attributes of functions,
the frame that `WasmObjectWriter` puts around a custom section, and the readers of
`WasmObjectFile`.
-/

namespace UosioCdt.Object

open Framing Leb128

abbrev Bytes := List UInt8

/-- The bytes of an ASCII text. -/
def bytes (s : String) : Bytes := s.toList.map fun c => UInt8.ofNat c.toNat

/-! ## `LEB128.h` -/

/-- `encodeULEB128`: at least `padTo` bytes. -/
def encodeULEB128 (value padTo : ℕ) : Bytes :=
  if value < 128 then
    if 1 < padTo then group true value :: (List.replicate (padTo - 2) 0x80 ++ [0])
    else [group false value]
  else group true (value % 128) :: encodeULEB128 (value / 128) (padTo - 1)
termination_by value
decreasing_by omega

/-- The loop of `decodeULEB128`; the sum is one of 64 bits. -/
def decodeULEB128 (value shift : ℕ) : Bytes → Except String (ℕ × Bytes)
  | [] => .error "malformed uleb128, extends past end"
  | b :: rest =>
    let slice := b.toNat % 128
    -- bits of the group would be lost
    if 64 ≤ shift ∨ slice * 2 ^ shift % 2 ^ 64 / 2 ^ shift ≠ slice then
      .error "uleb128 too big for uint64"
    else
      let value := (value + slice * 2 ^ shift) % 2 ^ 64
      if 128 ≤ b.toNat then decodeULEB128 value (shift + 7) rest else .ok (value, rest)

/-! ## The writer -/

/-- A function of a module, with the values of the attributes that it carries. -/
structure Function where
  name : Bytes
  wasmImport : Option Bytes
  wasmAbi : Option Bytes
  wasmAction : Option Bytes
  wasmNotify : Option Bytes
deriving DecidableEq, Repr

/-- `EmitULEB128IntValue` of the size, and `EmitBytes`. -/
def emitString (s : Bytes) : Bytes := encodeULEB128 s.length 0 ++ s

/-- The section for an attribute, when some function carries it: one string for each. -/
def emitSection (M : List Function) (name : String) (attr : Function → Option Bytes)
    (value : Function → Bytes) : List (Bytes × Bytes) :=
  if M.any fun F => (attr F).isSome then
    [(bytes name, M.flatMap fun F => if (attr F).isSome then emitString (value F) else [])]
  else []

/-- `EmitEndOfAsmFile`. The section of the imports has the names of the functions. -/
def emitEndOfAsmFile (M : List Function) : List (Bytes × Bytes) :=
  emitSection M ".imports" Function.wasmImport Function.name ++
    emitSection M ".uosio_abi" Function.wasmAbi (fun F => F.wasmAbi.getD []) ++
    emitSection M ".uosio_actions" Function.wasmAction (fun F => F.wasmAction.getD []) ++
    emitSection M ".uosio_notify" Function.wasmNotify (fun F => F.wasmNotify.getD [])

/-- `writeString` of `WasmObjectWriter` -/
def writeString (s : Bytes) : Bytes := encodeULEB128 s.length 0 ++ s

/-- `startCustomSection`, the contents, and `endSection`, which fills in the size. -/
def writeCustomSection (sec : Bytes × Bytes) : Except String Bytes :=
  let payload := writeString sec.1 ++ sec.2
  if payload.length % 2 ^ 32 ≠ payload.length then
    .error "section size does not fit in a uint32_t"
  else .ok (0 :: encodeULEB128 payload.length 5 ++ payload)

def writeCustomSections : List (Bytes × Bytes) → Except String Bytes
  | [] => .ok []
  | sec :: secs => do
    let first ← writeCustomSection sec
    let others ← writeCustomSections secs
    return first ++ others

/-! ## The reader -/

/-- What a `WasmObjectFile` knows about the attributes. -/
structure WasmObjectFile where
  allowedImports : List Bytes
  uosioAbi : Bytes
  actions : List Bytes
  notify : List Bytes
deriving DecidableEq, Repr

def readULEB128 (ptr : Bytes) : Except String (ℕ × Bytes) := decodeULEB128 0 0 ptr

def readVaruint32 (ptr : Bytes) : Except String (ℕ × Bytes) := do
  let (result, ptr) ← readULEB128 ptr
  if 2 ^ 32 ≤ result then throw "LEB is outside Varuint32 range"
  return (result, ptr)

def readString (ptr : Bytes) : Except String (Bytes × Bytes) := do
  let (len, ptr) ← readULEB128 ptr
  let stringLen := len % 2 ^ 32
  if ptr.length < stringLen then throw "EOF while reading string"
  return (ptr.take stringLen, ptr.drop stringLen)

/-- The loop of a list of strings. A string takes at least one byte, so there are no more rounds
than bytes. -/
def readNames (names : List Bytes) (ptr : Bytes) : Except String (List Bytes) :=
  readAll (fun names ptr => (readString ptr).map fun p => (names ++ [p.1], p.2)) "" ptr.length
    names ptr

namespace WasmObjectFile

/-- `parseAllowedSection` -/
def parseAllowedSection (obj : WasmObjectFile) (ptr : Bytes) : Except String WasmObjectFile := do
  return { obj with allowedImports := ← readNames obj.allowedImports ptr }

/-- `parseUosioABISection` -/
def parseUosioABISection (obj : WasmObjectFile) (ptr : Bytes) : Except String WasmObjectFile := do
  let (sr, ptr) ← readString ptr
  if ptr ≠ [] then throw "uosio abi section ended prematurely"
  return { obj with uosioAbi := sr }

/-- `parseActionsSection` -/
def parseActionsSection (obj : WasmObjectFile) (ptr : Bytes) : Except String WasmObjectFile := do
  return { obj with actions := ← readNames obj.actions ptr }

/-- `parseNotifySection` -/
def parseNotifySection (obj : WasmObjectFile) (ptr : Bytes) : Except String WasmObjectFile := do
  return { obj with notify := ← readNames obj.notify ptr }

end WasmObjectFile

/-- A section: its type, its name when it is a custom one, and its contents. -/
structure WasmSection where
  type : UInt8
  name : Bytes
  content : Bytes

/-- `readSection` -/
def readSection : Bytes → Except String (WasmSection × Bytes)
  | [] => throw "EOF while reading uint8"
  | type :: ptr => do
    let (size, ptr) ← readVaruint32 ptr
    if size = 0 then throw "Zero length section"
    if ptr.length < size then throw "Section too large"
    if type = 0 then do
      let (name, rest) ← readString ptr
      -- the size counts the name as well
      let size := (size + 2 ^ 32 - (ptr.length - rest.length)) % 2 ^ 32
      return (⟨type, name, rest.take size⟩, rest.drop size)
    else return (⟨type, [], ptr.take size⟩, ptr.drop size)

/-- What the readers of all other sections say. They leave these fields alone. -/
abbrev OtherSections := WasmSection → Except String Unit

/-- `parseSection` with `parseCustomSection` -/
def parseSection (others : OtherSections) (obj : WasmObjectFile) (sec : WasmSection) :
    Except String WasmObjectFile :=
  if sec.type ≠ 0 then (others sec).map fun _ => obj
  else if sec.name = bytes ".imports" then obj.parseAllowedSection sec.content
  else if sec.name = bytes ".uosio_abi" then obj.parseUosioABISection sec.content
  else if sec.name = bytes ".uosio_actions" then obj.parseActionsSection sec.content
  else if sec.name = bytes ".uosio_notify" then obj.parseNotifySection sec.content
  else (others sec).map fun _ => obj

/-- The sections of an object file, which the constructor of `WasmObjectFile` reads behind the
header. -/
def readSections (others : OtherSections) (ptr : Bytes) : Except String WasmObjectFile :=
  readAll
    (fun obj ptr => do
      let (sec, ptr) ← readSection ptr
      return (← parseSection others obj sec, ptr))
    "" ptr.length ⟨[], [], [], []⟩ ptr

end UosioCdt.Object
