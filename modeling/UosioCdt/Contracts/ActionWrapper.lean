import UosioCdt.Contracts.HostBuffers

/-!
# `action_wrapper`, the stubs and `execute_action` — an action from its sender to its handler

A parameter of an action may be an `ignore<T>`: the sender serializes a `T`, the receiver reads
nothing and leaves the bytes in the datastream of the contract. A stub is what `create_dispatch`
writes for a method; `execute_action` is what the macro `UOSIO_DISPATCH` calls.
-/

namespace UosioCdt.Contracts

open UosioCdt.Core

/-! ## Parameters -/

/-- The type of a parameter of an action. -/
inductive Param where
  | value (t : Ty)
  | ignore (t : Ty)

/-- `detail::unwrap` -/
def Param.unwrap : Param → Ty
  | .value t => t
  | .ignore t => t

/-- The type of the argument itself: `operator<<` and `operator>>` of an `ignore<T>` do nothing. -/
def Param.type : Param → Ty
  | .value t => t
  | .ignore _ => .empty

/-- `std::tuple` -/
def tuple : List Ty → Ty
  | [] => .empty
  | t :: ts => .field t (tuple ts)

/-- `detail::deduced` -/
def deduced (ps : List Param) : Ty := tuple (ps.map Param.unwrap)

/-- `detail::deduced_nounwrap` -/
def deducedNounwrap (ps : List Param) : Ty := tuple (ps.map Param.type)

/-! ## The sender -/

/-- `action::send` -/
def send (act : action.Val) : Option (List UInt8) := action.pack act

/-- `action::send_context_free` -/
def sendContextFree (act : action.Val) : Option (List UInt8) :=
  if act.2.2.1.length = 0 then action.pack act else none

/-- `action_wrapper` of a method with these parameters. -/
structure ActionWrapper (ps : List Param) where
  actionName : Name
  codeName : Name
  permissions : List permissionLevel.Val

/-- `action_wrapper::to_action`, behind the conversion of the arguments. -/
def ActionWrapper.toAction {ps : List Param} (w : ActionWrapper ps) (args : (deduced ps).Val) :
    Option action.Val := do
  let data ← (deduced ps).pack args
  return (w.codeName, w.actionName, w.permissions, data, ())

/-- `action_wrapper::send` -/
def ActionWrapper.send {ps : List Param} (w : ActionWrapper ps) (args : (deduced ps).Val) :
    Option (List UInt8) := do
  let act ← w.toAction args
  Contracts.send act

/-- `variant_action_wrapper` of the methods with these parameters. -/
structure VariantActionWrapper {n : ℕ} (methods : Fin (n + 1) → List Param) where
  actionName : Name
  codeName : Name
  permissions : List permissionLevel.Val

/-- `variant_action_wrapper::to_action` -/
def VariantActionWrapper.toAction {n : ℕ} {methods : Fin (n + 1) → List Param}
    (w : VariantActionWrapper methods) (variant : Fin (n + 1))
    (args : (deduced (methods variant)).Val) : Option action.Val := do
  -- `std::tuple_cat(std::make_tuple(var), …)`
  let data ← (Ty.field .unsignedInt (deduced (methods variant))).pack
    (UInt32.ofNat variant, args)
  return (w.codeName, w.actionName, w.permissions, data, ())

/-! ## The receiver -/

/-- What a handler gets: its arguments, and the datastream that its contract is constructed with. -/
structure Received (ps : List Param) where
  args : (deducedNounwrap ps).Val
  ds : List UInt8

/-- `T arg0; ds >> arg0;`, `T arg1; ds >> arg1;` and so on. -/
def readArgs (lt : KeyOrder) : (ps : List Param) → Reader (deducedNounwrap ps).Val
  | [] => return ()
  | p :: ps => do
    let arg ← p.type.read lt p.type.default
    let args ← readArgs lt ps
    return (arg, args)

/-- The stub that `create_dispatch` writes, up to the call of the method. -/
def runStub (lt : KeyOrder) (ps : List Param) (h : HostBuffer) (memory : ℕ → UInt8) :
    Option (Received ps) := do
  let as := h.report 0
  let buff := if as > 0 then h.fill (newBuffer memory as.toNat) as else []
  let (args, ds) ← readArgs lt ps buff
  return ⟨args, ds⟩

/-- `execute_action`, up to the call of the method: `ds >> args` of the tuple of the arguments. -/
def executeAction (lt : KeyOrder) (ps : List Param) (h : HostBuffer) (memory : ℕ → UInt8) :
    Option (Received ps) := do
  let size := h.report 0
  let buffer := if size > 0 then h.fill (newBuffer memory size.toNat) size else []
  let (args, ds) ← (deducedNounwrap ps).read lt (deducedNounwrap ps).default buffer
  return ⟨args, ds⟩

end UosioCdt.Contracts
