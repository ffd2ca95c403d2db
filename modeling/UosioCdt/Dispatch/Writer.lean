import Mathlib.Data.Char
import Mathlib.Data.List.Lex
import UosioCdt.Lib.Leb128
import UosioCdt.Lib.MultiMap
import UosioCdt.Lib.StructuredCode
import UosioCdt.Tools.Name

/-!
# `Writer::createDispatchFunction` — the generated `apply`

The linker writes the dispatcher of a contract from the action entries `name:func` and the notify
entries `code::action:func` of the object files. The definitions follow the lambdas of the source
(`create_if`, `create_action_dispatch`, `create_notify_dispatch`) and write instructions;
`Instr.encode` is the bytes each of them puts on the stream.
-/

namespace UosioCdt.Dispatch

open Leb128 StructuredCode Tools

/-! ## Instructions -/

/-- The instructions of the dispatcher, brackets aside. -/
inductive Plain where
  | call (index : UInt32)
  | getLocal (index : UInt32)
  | i64Eq
  | i64Ne
  | i32Zero
  | i64Const (value : UInt64)
deriving DecidableEq, Repr

abbrev Instr := Tok Plain

def OPCODE_CALL : UInt8 := 0x10
def OPCODE_IF : UInt8 := 0x4
def OPCODE_ELSE : UInt8 := 0x5
def OPCODE_END : UInt8 := 0xb
def OPCODE_GET_LOCAL : UInt8 := 0x20
def OPCODE_I64_EQ : UInt8 := 0x51
def OPCODE_I64_NE : UInt8 := 0x52
def OPCODE_I32_CONST : UInt8 := 0x41
def OPCODE_I64_CONST : UInt8 := 0x42

def UOSIO_COMPILER_ERROR_BASE : UInt64 := 8000000000000000000
def UOSIO_ERROR_NO_ACTION : UInt64 := UOSIO_COMPILER_ERROR_BASE
def UOSIO_ERROR_ONERROR : UInt64 := UOSIO_COMPILER_ERROR_BASE + 1

/-- The block type of an IF without results. -/
def blockTypeNone : UInt8 := 0x40

/-- The bytes written for an instruction. The source writes the operand 0 of `I32_CONST` with
`writeUleb128` and that of `I64_CONST` with `encodeSLEB128((int64_t)value)`. -/
def encodeInstr : Instr → List UInt8
  | .op (.call index) => OPCODE_CALL :: encodeU index.toNat
  | .op (.getLocal index) => OPCODE_GET_LOCAL :: encodeU index.toNat
  | .op .i64Eq => [OPCODE_I64_EQ]
  | .op .i64Ne => [OPCODE_I64_NE]
  | .op .i32Zero => OPCODE_I32_CONST :: encodeU 0
  | .op (.i64Const value) => OPCODE_I64_CONST :: encodeS value.toBitVec.toInt
  | .if_ => [OPCODE_IF, blockTypeNone]
  | .else_ => [OPCODE_ELSE]
  | .end_ => [OPCODE_END]

/-! ## The linker's data -/

/-- What the dispatcher is made from: the entries of an object file. -/
structure ObjFile where
  uosioActions : List Str
  uosioNotify : List Str

/-- The linker when the dispatcher is written: the object files, the function index of each symbol
that `Symtab->find` knows, and the number of symbols. -/
structure Linker where
  objectFiles : List ObjFile
  find : Str → Option UInt32
  symbolCount : ℕ

/-- The ways the linker stops instead of writing a body. -/
inductive LinkError where
  | fatal (msg : String)
  | nullSymbol
  | outOfRange
deriving DecidableEq, Repr

/-- The symbols and names the dispatcher knows. -/
def uosioAssertCode : Str := "uosio_assert_code".toList
def postDispatch : Str := "post_dispatch".toList
def preDispatch : Str := "pre_dispatch".toList
def wasmCallCtors : Str := "__wasm_call_ctors".toList
def cxaFinalize : Str := "__cxa_finalize".toList
def uosioName : Str := "uosio".toList
def onerrorName : Str := "onerror".toList

/-- `str.substr(0, str.find(":"))` -/
def beforeColon (str : Str) : Str := str.takeWhile (· ≠ ':')

/-- `str.substr(str.find(":")+1)`; the whole string when there is no colon (`npos + 1 = 0`). -/
def afterColon (str : Str) : Str :=
  match str.dropWhile (· ≠ ':') with
  | [] => str
  | _ :: rest => rest

/-- `snotif.substr(idx+2)`, with `idx = npos` when there is no colon. -/
def afterColons (str : Str) : Except LinkError Str :=
  match str.dropWhile (· ≠ ':') with
  | [] => if str = [] then .error .outOfRange else .ok str.tail
  | [_] => .error .outOfRange
  | _ :: _ :: rest => .ok rest

/-- The entries that `has_dispatched.insert(entry).second` lets through, in order. -/
def notDispatched : List Str → List Str → List Str
  | _, [] => []
  | hasDispatched, e :: es =>
    if e ∈ hasDispatched then notDispatched hasDispatched es
    else e :: notDispatched (e :: hasDispatched) es

/-- The action entries in the order of the object files, each once. -/
def Linker.actions (L : Linker) : List Str :=
  notDispatched [] (L.objectFiles.flatMap (·.uosioActions))

/-- The notify entries in the order of the object files, each once. -/
def Linker.notifies (L : Linker) : List Str :=
  notDispatched [] (L.objectFiles.flatMap (·.uosioNotify))

/-! ## `create_if` -/

/-- `func_sym->getFunctionIndex()` of the symbol behind the first colon. -/
def funcIndex (L : Linker) (str : Str) : Except LinkError UInt32 :=
  match L.find (afterColon str) with
  | some index => .ok index
  | none => .error .nullSymbol

/-- `create_if`, with `need_else` passed in; it is true afterwards. -/
def createIf (L : Linker) (str : Str) (needElse : Bool) : Except LinkError (List Instr) := do
  let index ← funcIndex L str
  return (if needElse then [.else_] else []) ++
    [.op (.i64Const (stringToName (beforeColon str))), .op (.getLocal 2), .op .i64Eq, .if_,
      .op (.getLocal 0), .op (.getLocal 1), .op (.call index)]

/-- The loop of `create_if` over the entries of one chain. -/
def createIfs (L : Linker) : List Str → Bool → Except LinkError (List Instr)
  | [], _ => return []
  | str :: strs, needElse => do
    let head ← createIf L str needElse
    let rest ← createIfs L strs true
    return head ++ rest

/-- The call of `post_dispatch`, the same in both dispatchers. -/
def callPost (index : UInt32) : List Instr :=
  [.op (.getLocal 0), .op (.getLocal 1), .op (.getLocal 2), .op (.call index)]

/-! ## `create_action_dispatch` -/

/-- `assert_idx < Symtab->getSymbols().size()`, or the link fails. -/
def assertIndex (L : Linker) : Except LinkError UInt32 :=
  match L.find uosioAssertCode with
  | some index =>
    if index.toNat < L.symbolCount then .ok index
    else .error (.fatal "fatal failure: contract with no actions and trying to create dispatcher")
  | none =>
    .error (.fatal "fatal failure: contract with no actions and trying to create dispatcher")

/-- `create_action_dispatch` -/
def createActionDispatch (L : Linker) : Except LinkError (List Instr) := do
  let actCnt := L.actions.length
  let ifs ← createIfs L L.actions false
  let assertIdx ← assertIndex L
  let post := match L.find postDispatch with
    | some postIdx => .else_ :: callPost postIdx
    | none => []
  return ifs ++ (if actCnt > 0 then [.else_] else []) ++
    [.op (.getLocal 0), .op (.i64Const (stringToName uosioName)), .op .i64Ne, .if_,
      .op .i32Zero, .op (.i64Const UOSIO_ERROR_NO_ACTION), .op (.call assertIdx)] ++
    post ++ [.end_] ++ List.replicate actCnt .end_

/-! ## `create_notify_dispatch` -/

/-- `std::map<std::string, std::vector<std::string>>`, in the order of its keys. -/
abbrev NotifyHandlers := List (Str × List Str)

/-- The loop that fills `notify_handlers`. -/
def registerNotify : NotifyHandlers → List Str → Except LinkError NotifyHandlers
  | m, [] => return m
  | m, snotif :: rest => do
    let handler ← afterColons snotif
    -- `notify_handlers[code_name].push_back(rest)`
    registerNotify (MultiMap.pushBack m (beforeColon snotif) handler) rest

/-- `has_onerror_handler` -/
def hasOnerrorHandler (m : NotifyHandlers) : Bool :=
  m.any fun notif0 => notif0.1 = uosioName ∧
    notif0.2.any fun notif1 => beforeColon notif1 = onerrorName

/-- The assertion on `uosio::onerror`. -/
def assertOnerror (assertIdx : UInt32) : List Instr :=
  [.op (.i64Const (stringToName uosioName)), .op (.getLocal 1), .op .i64Eq, .if_,
    .op (.i64Const (stringToName onerrorName)), .op (.getLocal 2), .op .i64Eq, .if_,
    .op .i32Zero, .op (.i64Const UOSIO_ERROR_ONERROR), .op (.call assertIdx), .end_, .end_]

/-- The codes other than `*`, with their handlers. -/
def specific (m : NotifyHandlers) : NotifyHandlers := m.filter fun notif0 => notif0.1 ≠ ['*']

/-- The loop over the codes other than `*`, with `notify0_need_else` passed in. -/
def createCodes (L : Linker) : NotifyHandlers → Bool → Except LinkError (List Instr)
  | [], _ => return []
  | notif0 :: rest, needElse => do
    let ifs ← createIfs L notif0.2 false
    let others ← createCodes L rest true
    return (if needElse then [.else_] else []) ++
      [.op (.i64Const (stringToName notif0.1)), .op (.getLocal 1), .op .i64Eq, .if_] ++
      ifs ++ List.replicate notif0.2.length .end_ ++ others

/-- `create_notify_dispatch`; it runs behind `create_action_dispatch`, which has checked
`assert_idx`. -/
def createNotifyDispatch (L : Linker) : Except LinkError (List Instr) := do
  let assertIdx ← assertIndex L
  let notifyHandlers ← registerNotify [] L.notifies
  let onerror := if hasOnerrorHandler notifyHandlers then [] else assertOnerror assertIdx
  let codes ← createCodes L (specific notifyHandlers) false
  let wildcards := MultiMap.get notifyHandlers ['*']
  let ifs ← createIfs L wildcards false
  let post := match L.find postDispatch with
    | some postIdx => .else_ :: (callPost postIdx ++ [.end_])
    | none => []
  return onerror ++ codes ++ (if (specific notifyHandlers).isEmpty then [] else [.else_]) ++
    ifs ++ post ++ List.replicate wildcards.length .end_

/-! ## The body -/

/-- `ctors_sym`: called unless its index is 0. -/
def callCtors (L : Linker) : List Instr :=
  match L.find wasmCallCtors with
  | some ctorsIdx => if ctorsIdx ≠ 0 then [.op (.call ctorsIdx)] else []
  | none => []

/-- `dtors_sym`: called with NULL unless its index is 0 or out of range. -/
def callDtors (L : Linker) : List Instr :=
  match L.find cxaFinalize with
  | some dtorsIdx =>
    if dtorsIdx ≠ 0 ∧ dtorsIdx.toNat < L.symbolCount then [.op .i32Zero, .op (.call dtorsIdx)]
    else []
  | none => []

/-- The instructions of the body, behind its (empty) list of locals. -/
def dispatchInstrs (L : Linker) : Except LinkError (List Instr) := do
  let pre := match L.find preDispatch with
    | some preIdx =>
      [.op (.getLocal 0), .op (.getLocal 1), .op (.getLocal 2), .op (.call preIdx), .if_]
    | none => []
  let preEnd := match L.find preDispatch with
    | some _ => [.end_]
    | none => []
  let actions ← createActionDispatch L
  let notifies ← createNotifyDispatch L
  return callCtors L ++ pre ++
    [.op (.getLocal 0), .op (.getLocal 1), .op .i64Eq, .if_] ++ actions ++
    [.else_] ++ notifies ++ [.end_] ++ callDtors L ++ preEnd ++ [.end_]

/-- `BodyContent`: the number of local declarations and the instructions. -/
def bodyContent (L : Linker) : Except LinkError (List UInt8) := do
  let instrs ← dispatchInstrs L
  return encodeU 0 ++ instrs.flatMap encodeInstr

/-- `FunctionBody`: the content behind its size, written as 32 bits. -/
def createDispatchFunction (L : Linker) : Except LinkError (List UInt8) := do
  let content ← bodyContent L
  return encodeU (content.length % 2 ^ 32) ++ content

end UosioCdt.Dispatch
