import Mathlib.Data.List.Basic
import UosioCdt.Dispatch.Writer

/-!
# `createExportSection` — the exports that are asked for

`--only-export name:kind` asks for an export, and `Config::should_export` compares the candidates
with what was asked for. The name is copied into a buffer without a terminator, and it is compared
with `memcmp`, so that what lies behind a string in memory is read; it is passed in.
-/

namespace UosioCdt.Dispatch.Export

open Leb128 Tools

/-! ## `--only-export` -/

structure WasmExport where
  name : Str
  kind : UInt8
  index : UInt32
deriving DecidableEq

def WASM_EXTERNAL_FUNCTION : UInt8 := 0x0
def WASM_EXTERNAL_TABLE : UInt8 := 0x1
def WASM_EXTERNAL_MEMORY : UInt8 := 0x2
def WASM_EXTERNAL_GLOBAL : UInt8 := 0x3

/-- The value of `--only-export`, a C string. -/
structure Arg where
  value : Str
  noNul : '\x00' ∉ value

/-- `get_kind` -/
def getKind (str : Str) : UInt8 :=
  if str = "function".toList then 0
  else if str = "table".toList then 1
  else if str = "memory".toList then 2
  else 3

/-- `get_first` -/
def Arg.name (arg : Arg) : Str := beforeColon arg.value

/-- `get_kind` of `get_second` -/
def Arg.kind (arg : Arg) : UInt8 := getKind (afterColon arg.value)

/-- A `StringRef` of a `char*`: the buffer and what lies behind it, up to the first NUL. -/
def stringRef (cname behind : Str) : Str := (cname ++ behind).takeWhile (· ≠ '\x00')

/-- The entry for the `i`-th argument, behind whose buffer lies `behind i`. -/
def requested (behind : ℕ → Str) (arg : Arg) (i : ℕ) : Option WasmExport :=
  if arg.name ≠ [] then some ⟨stringRef arg.name (behind i), arg.kind, 0⟩ else none

/-- `Config->exports` -/
def configExports (behind : ℕ → Str) (args : List Arg) : List WasmExport :=
  args.zipIdx.filterMap fun (arg, i) => requested behind arg i

/-! ## `should_export` -/

/-- The characters of a C string: a NUL is behind it, and then what is there. -/
def cStr (str : Str) (beyond : ℕ → Char) (i : ℕ) : Char :=
  str[i]?.getD (if i = str.length then '\x00' else beyond i)

/-- `memcmp` finds no difference. -/
def memcmpZero (a b : ℕ → Char) (n : ℕ) : Bool := (List.range n).all fun i => a i = b i

/-- `should_export`; `beyond x ex` lies behind the name of `x` when it is compared with `ex`. -/
def shouldExport (beyond : WasmExport → WasmExport → ℕ → Char) (exports : List WasmExport)
    (ex : WasmExport) : Bool :=
  exports.any fun x =>
    (memcmpZero (cStr x.name (beyond x ex)) (cStr ex.name (beyond x ex)) ex.name.length
      || cStr x.name (beyond x ex) 0 = '*') && x.kind = ex.kind

/-! ## The section -/

/-- `writeStr` -/
def writeStr (str : Str) : List UInt8 :=
  encodeU str.length ++ str.map fun c => UInt8.ofNat c.toNat

/-- `writeExport` -/
def writeExport (ex : WasmExport) : Except LinkError (List UInt8) :=
  if ex.kind = WASM_EXTERNAL_FUNCTION ∨ ex.kind = WASM_EXTERNAL_GLOBAL ∨
      ex.kind = WASM_EXTERNAL_MEMORY ∨ ex.kind = WASM_EXTERNAL_TABLE then
    .ok (writeStr ex.name ++ [ex.kind] ++ encodeU ex.index.toNat)
  else .error (.fatal "unsupported export type")

/-- `createExportSection`: the contents of the section, if there is one, and `Exports` behind it. -/
def createExportSection (beyond : WasmExport → WasmExport → ℕ → Char)
    (configured exports : List WasmExport) :
    Except LinkError (Option (List UInt8) × List WasmExport) := do
  if exports = [] then return (none, exports)
  let filteredExports := exports.filter (shouldExport beyond configured)
  let written ← filteredExports.mapM writeExport
  return (some (encodeU filteredExports.length ++ written.flatten), filteredExports)

end UosioCdt.Dispatch.Export
