import UosioCdt.Core.Serialize

/-!
# Buffers that the host fills

The wrappers that ask the host for a size and let it fill a buffer: `get_active_producers`,
`get_action`, `unpack_action_data` and `get_blockchain_parameters`. A new buffer has arbitrary bytes.
-/

namespace UosioCdt.Contracts

open UosioCdt.Core

/-! ## Host functions -/

/-- A host function that fills a buffer: the bytes of the value, and what a call with a buffer
returns. -/
structure HostBuffer where
  bytes : List UInt8
  returned : UInt32 → UInt32
  /-- The size can be reported. -/
  length_lt : bytes.length < 2 ^ 32
  /-- A buffer that holds everything is told so. -/
  returned_eq : ∀ len, bytes.length ≤ len.toNat → (returned len).toNat = bytes.length

namespace HostBuffer

/-- What the call returns. -/
def report (h : HostBuffer) (len : UInt32) : UInt32 :=
  if len = 0 then UInt32.ofNat h.bytes.length else h.returned len

/-- The buffer behind the call. -/
def fill (h : HostBuffer) (buffer : List UInt8) (len : UInt32) : List UInt8 :=
  let n := min len.toNat h.bytes.length
  h.bytes.take n ++ buffer.drop n

end HostBuffer

/-- `malloc(size)` or `alloca(size)`, with the bytes that are there. -/
def newBuffer (memory : ℕ → UInt8) (size : ℕ) : List UInt8 := (List.range size).map memory

/-! ## Serialized types -/

/-- A class whose fields are primitive. -/
def primFields : List Prim → Ty
  | [] => .empty
  | p :: ps => .field (.prim p) (primFields ps)

/-- `permission_level` -/
def permissionLevel : Ty := .aggregate 0 (.field .name (.field .name .empty))

/-- `action` -/
def action : Ty := .aggregate 1
  (.field .name (.field .name (.field (.seq .vector permissionLevel) (.field .bytes .empty))))

/-- The fields of `blockchain_parameters`: one of 8 bytes, 14 of 4 bytes, two of 2 bytes. -/
def parameterFields : List Prim :=
  .int 8 :: List.replicate 14 (.int 4) ++ [.int 2, .int 2]

/-- `blockchain_parameters` -/
def blockchainParameters : Ty := .aggregate 2 (primFields parameterFields)

/-- `sizeof(blockchain_parameters)`: the fields and the padding behind them. -/
def sizeofBlockchainParameters : ℕ := 72

/-! ## Wrappers -/

/-- A `name` in memory. -/
def nameBytes (n : Name) : List UInt8 := LittleEndian.toBytes 8 n.value.toNat

/-- The names in memory, as many as there are. -/
def namesIn : ℕ → List UInt8 → List Name
  | 0, _ => []
  | n + 1, bytes =>
    ⟨⟨BitVec.ofNat 64 (LittleEndian.ofBytes (bytes.take 8))⟩⟩ :: namesIn n (bytes.drop 8)

/-- `get_active_producers` -/
def getActiveProducers (h : HostBuffer) : List Name :=
  let prodCnt := h.report 0 / 8
  let activeProds : List Name := List.replicate prodCnt.toNat ⟨0⟩
  -- the second call passes the number of elements
  let data := h.fill (activeProds.flatMap nameBytes) (UInt32.ofNat activeProds.length)
  namesIn activeProds.length data

/-- `get_action`, or `none` when a check fails -/
def getAction (lt : KeyOrder) (h : HostBuffer) (memory : ℕ → UInt8) : Option action.Val :=
  let s := h.report 0
  if (0#32).slt s.toBitVec then
    let buffer := h.fill (newBuffer memory s.toNat) s
    let size2 := h.report s
    if s = size2 then action.unpack lt buffer else none
  else none

/-- `unpack_action_data` -/
def unpackActionData (lt : KeyOrder) (t : Ty) (h : HostBuffer) (memory : ℕ → UInt8) :
    Option t.Val :=
  let size := h.report 0
  let buffer := h.fill (newBuffer memory size.toNat) size
  t.unpack lt buffer

/-- `get_blockchain_parameters` -/
def getBlockchainParameters (lt : KeyOrder) (h : HostBuffer) (memory : ℕ → UInt8)
    (params : blockchainParameters.Val) : Option blockchainParameters.Val :=
  let len := UInt32.ofNat sizeofBlockchainParameters
  let buf := h.fill (newBuffer memory sizeofBlockchainParameters) len
  let size := h.report len
  if size ≤ len then
    (blockchainParameters.read lt params (buf.take size.toNat)).map Prod.fst
  else none

/-! ## The host -/

/-- What the host holds, and the functions that hand it out. -/
structure Host where
  producers : List Name
  activeProducers : HostBuffer
  activeProducers_eq : activeProducers.bytes = producers.flatMap nameBytes
  action : HostBuffer
  /-- The size of an action is reported as an `int`. -/
  action_lt : action.bytes.length < 2 ^ 31
  actionData : HostBuffer
  parameters : blockchainParameters.Val
  blockchainParameters : HostBuffer
  blockchainParameters_eq : blockchainParameters.bytes = Ty.serialize _ parameters

/-- Every wrapper returns what all the bytes of the host decode to. -/
structure Host.Decodes (host : Host) (lt : KeyOrder) : Prop where
  getActiveProducers_eq : getActiveProducers host.activeProducers = host.producers
  getAction_eq : ∀ memory,
    getAction lt host.action memory = Contracts.action.unpack lt host.action.bytes
  unpackActionData_eq : ∀ t memory,
    unpackActionData lt t host.actionData memory = t.unpack lt host.actionData.bytes
  getBlockchainParameters_eq : ∀ memory params,
    getBlockchainParameters lt host.blockchainParameters memory params = some host.parameters

end UosioCdt.Contracts
