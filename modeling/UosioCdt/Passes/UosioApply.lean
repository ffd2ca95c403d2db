import UosioCdt.Lib.ControlFlow

/-!
# `UosioApplyPass` — constructors and destructors around an entry point

The pass calls `__wasm_call_ctors` at the beginning of an entry function and `__cxa_finalize` before
each of its returns.
-/

namespace UosioCdt.Passes

/-! ## Values -/

/-- A type of results and parameters: `void`, `i32`, or any other one. -/
inductive IRType where
  | void
  | int32
  | other (id : ℕ)
deriving DecidableEq

structure FunctionType where
  result : IRType
  params : List IRType
  isVarArg : Bool
deriving DecidableEq

/-- The type of what a global value points to. -/
inductive ValueType where
  | function (type : FunctionType)
  | other (id : ℕ)
deriving DecidableEq

structure PointerType where
  elementType : ValueType
  addressSpace : ℕ
deriving DecidableEq

/-- `PointerType::getUnqual` -/
def FunctionType.getUnqual (type : FunctionType) : PointerType := ⟨.function type, 0⟩

/-- A function, alias or variable of a module. `stripped` is the calling convention of the function
that `stripPointerCasts` leads to, if it leads to one. -/
structure GlobalValue where
  name : String
  type : PointerType
  stripped : Option ℕ
deriving DecidableEq

/-- What `getOrInsertFunction` returns: a global value, or its cast to another type. -/
inductive Constant where
  | global (v : GlobalValue)
  | bitCast (v : GlobalValue) (type : PointerType)
deriving DecidableEq

/-! ## Functions -/

structure CallInst where
  callee : String
  args : List ℕ
  callingConv : ℕ
deriving DecidableEq

/-- An instruction: a call that the pass makes, or any other one. -/
inductive Instr (ι : Type) where
  | call (c : CallInst)
  | other (inst : ι)

/-- The end of a block: a `ReturnInst`, or any other terminator with its successors. -/
inductive Terminator (τ : Type) where
  | ret (inst : τ)
  | other (inst : τ) (successors : List ℕ)

def Terminator.successors {τ : Type} : Terminator τ → List ℕ
  | .ret _ => []
  | .other _ successors => successors

structure BasicBlock (ι τ : Type) where
  body : List (Instr ι)
  terminator : Terminator τ

/-- A function; the first block is the entry, and a declaration has no blocks. The verifier asks
that the entry block has no predecessors. -/
structure Function (ι τ : Type) where
  name : String
  attributes : List String
  type : FunctionType
  addressSpace : ℕ
  callingConv : ℕ
  blocks : List (BasicBlock ι τ)
  entry_no_pred : ∀ b ∈ blocks, 0 ∉ b.terminator.successors

/-- A module: its functions, and its other global values. -/
structure Module (ι τ : Type) where
  functions : List (Function ι τ)
  globals : List GlobalValue

section pass

variable {ι τ : Type}

def Function.global (F : Function ι τ) : GlobalValue :=
  ⟨F.name, ⟨.function F.type, F.addressSpace⟩, some F.callingConv⟩

/-! ## Callees -/

/-- A declaration, with the C calling convention. -/
def Function.create (name : String) (type : FunctionType) : Function ι τ :=
  ⟨name, [], type, 0, 0, [], fun _ h => absurd h List.not_mem_nil⟩

def Module.getNamedValue (M : Module ι τ) (name : String) : Option GlobalValue :=
  (M.functions.map Function.global ++ M.globals).find? (·.name = name)

/-- A function that is missing is declared. A value of another type is cast. -/
def Module.getOrInsertFunction (M : Module ι τ) (name : String) (type : FunctionType) :
    Module ι τ × Constant :=
  match M.getNamedValue name with
  | none =>
    let f : Function ι τ := Function.create name type
    ({ M with functions := M.functions ++ [f] }, .global f.global)
  | some v =>
    if v.type ≠ type.getUnqual then (M, .bitCast v type.getUnqual) else (M, .global v)

/-- `CreateCall` and `setCallingConv`. The callee is a `Constant` that the pass casts to a
`Function`, and the type of the function is read from it; a bitcast has no such member. -/
def createCall (callee : Constant) (args : List ℕ) : Option CallInst :=
  match callee with
  | .global v => some ⟨v.name, args, v.stripped.getD 0⟩
  | .bitCast _ _ => none

/-! ## `runOnFunction` -/

/-- A call in front of the first instruction of the entry block. -/
def insertEntry (c : CallInst) : List (BasicBlock ι τ) → List (BasicBlock ι τ)
  | [] => []
  | b :: bs => { b with body := .call c :: b.body } :: bs

/-- A call in front of the terminator of a block that returns. -/
def insertReturn (wasmDtors : Constant) (b : BasicBlock ι τ) : Option (BasicBlock ι τ) :=
  match b.terminator with
  | .ret _ => do
    let wasmDtorCall ← createCall wasmDtors [0]
    return { b with body := b.body ++ [.call wasmDtorCall] }
  | .other _ _ => some b

/-- The insertions keep the terminators. -/
lemma map_terminator_insertEntry (c : CallInst) (bs : List (BasicBlock ι τ)) :
    (insertEntry c bs).map (·.terminator) = bs.map (·.terminator) := by
  cases bs <;> rfl

lemma terminator_of_insertReturn {wasmDtors : Constant} {b b' : BasicBlock ι τ}
    (h : insertReturn wasmDtors b = some b') : b'.terminator = b.terminator := by
  unfold insertReturn at h
  split at h
  · obtain ⟨c, -, hc⟩ := Option.bind_eq_some_iff.mp h
    cases hc
    rfl
  · cases h
    rfl

lemma map_terminator_of_mapM {wasmDtors : Constant} {bs bs' : List (BasicBlock ι τ)}
    (h : bs.mapM (insertReturn wasmDtors) = some bs') :
    bs'.map (·.terminator) = bs.map (·.terminator) := by
  induction bs generalizing bs' with
  | nil =>
    cases h
    rfl
  | cons b bs ih =>
    rw [List.mapM_cons] at h
    obtain ⟨b', hb', h⟩ := Option.bind_eq_some_iff.mp h
    obtain ⟨rest, hrest, h⟩ := Option.bind_eq_some_iff.mp h
    cases h
    rw [List.map_cons, List.map_cons, terminator_of_insertReturn hb', ih hrest]

lemma entry_no_pred_of_map {bs bs' : List (BasicBlock ι τ)}
    (hmap : bs'.map (·.terminator) = bs.map (·.terminator))
    (h : ∀ b ∈ bs, 0 ∉ b.terminator.successors) : ∀ b ∈ bs', 0 ∉ b.terminator.successors := by
  intro b hb
  have hmem : b.terminator ∈ bs'.map (·.terminator) := List.mem_map_of_mem hb
  rw [hmap] at hmem
  obtain ⟨b', hb', heq⟩ := List.mem_map.mp hmem
  exact heq ▸ h b' hb'

def Function.insertEntry (F : Function ι τ) (c : CallInst) : Function ι τ :=
  { F with
    blocks := Passes.insertEntry c F.blocks
    entry_no_pred := entry_no_pred_of_map (map_terminator_insertEntry c F.blocks) F.entry_no_pred }

/-- The loop over the blocks. -/
def Function.insertReturns (F : Function ι τ) (wasmDtors : Constant) : Option (Function ι τ) :=
  match h : F.blocks.mapM (insertReturn wasmDtors) with
  | none => none
  | some blocks => some
    { F with
      blocks := blocks
      entry_no_pred := entry_no_pred_of_map (map_terminator_of_mapM h) F.entry_no_pred }

def wasmCtorsType : FunctionType := ⟨.void, [], false⟩

def wasmDtorsType : FunctionType := ⟨.void, [.int32], false⟩

/-- `runOnFunction`: the module, the function, and whether it was changed. -/
def runOnFunction (M : Module ι τ) (F : Function ι τ) :
    Option (Module ι τ × Function ι τ × Bool) :=
  if F.attributes.contains "uosio_wasm_entry" ∨ F.name = "apply" then do
    let (M, wasmCtors) := M.getOrInsertFunction "__wasm_call_ctors" wasmCtorsType
    let (M, wasmDtors) := M.getOrInsertFunction "__cxa_finalize" wasmDtorsType
    let wasmCtorCall ← createCall wasmCtors []
    let F ← (F.insertEntry wasmCtorCall).insertReturns wasmDtors
    return (M, F, true)
  else some (M, F, false)

/-- The pass at the `i`-th function, which is left alone if it is a declaration. -/
def runAt (M : Module ι τ) (i : ℕ) : Option (Module ι τ) :=
  match M.functions[i]? with
  | none => some M
  | some F =>
    if F.blocks = [] then some M
    else do
      let (M, F, _) ← runOnFunction M F
      return { M with functions := M.functions.set i F }

/-- The pass on all functions of a module. -/
def runOnModule (M : Module ι τ) : Option (Module ι τ) :=
  (List.range M.functions.length).foldlM runAt M

/-! ## Paths -/

/-- What is executed: instructions, and the terminators of blocks. -/
inductive Event (ι τ : Type) where
  | inst (i : Instr ι)
  | leave (t : Option (Terminator τ))

/-- The control-flow graph of a function, over the places of its blocks. -/
def Function.graph (F : Function ι τ) : ControlFlow.Graph ℕ (Event ι τ) where
  body i := (F.blocks[i]?.elim [] (·.body)).map .inst
  leave i := .leave (F.blocks[i]?.map (·.terminator))
  returns i := ∃ b, F.blocks[i]? = some b ∧ ∃ inst, b.terminator = .ret inst
  next i j := ∃ b, F.blocks[i]? = some b ∧ j ∈ b.terminator.successors
  not_next := by
    rintro i ⟨b, hb, inst, hret⟩ j ⟨b', hb', hj⟩
    rw [hb] at hb'
    obtain rfl := Option.some.inj hb'
    rw [hret] at hj
    cases hj

/-- A path of the function from its entry to a return. -/
def Function.Executes (F : Function ι τ) (es : List (Event ι τ)) (r : Event ι τ) : Prop :=
  ControlFlow.Path F.graph 0 es r

/-- The functions that the pass changes. -/
def IsEntry (F : Function ι τ) : Prop :=
  F.blocks ≠ [] ∧ ("uosio_wasm_entry" ∈ F.attributes ∨ F.name = "apply")

/-- Around every path are a call of `__wasm_call_ctors` and one of `__cxa_finalize`. -/
structure Bracketed (F F' : Function ι τ) (ctors dtors : CallInst) : Prop where
  ctors_eq : ctors.callee = "__wasm_call_ctors" ∧ ctors.args = []
  dtors_eq : dtors.callee = "__cxa_finalize" ∧ dtors.args = [0]
  executes_iff : ∀ es' r, F'.Executes es' r ↔
    ∃ es, es' = .inst (.call ctors) :: es ++ [.inst (.call dtors)] ∧ F.Executes es r

/-- What the pass makes of a function. -/
def Passed (F F' : Function ι τ) : Prop :=
  (IsEntry F → ∃ ctors dtors, Bracketed F F' ctors dtors) ∧ (¬ IsEntry F → F' = F)

end pass

end UosioCdt.Passes
