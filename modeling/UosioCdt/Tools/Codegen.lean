import UosioCdt.Tools.Name

/-!
# `uosio_codegen_visitor` — the dispatch stubs of a translation unit

`VisitCXXMethodDecl` writes a stub for every action and every notify handler that it meets, and
remembers their names in `cg.actions` and `cg.notify_handlers` so that none is written twice.
Methods are known by their identity (`μ`), which redeclarations share.
-/

namespace UosioCdt.Tools.Codegen

/-- What is read of a method. -/
structure Methods (μ : Type) where
  nameAsString : μ → Str
  parentName : μ → Str
  parentQualifiedName : μ → Str
  /-- the fully qualified types of the parameters -/
  parameters : μ → List Str
  isUosioContract : μ → Bool

/-- The attribute of a declaration; `isUosioAction` is asked before `isUosioNotify`. The name of an
action may be left empty, and a notify pair is `code::action`. -/
inductive Attr where
  | action (name : Str)
  | notify (code act : Str)
  | none
deriving DecidableEq

structure CXXMethodDecl (μ : Type) where
  method : μ
  attr : Attr

/-- A stub: what it is for, and the text that is inserted at the end of the main file. -/
structure Stub (μ : Type) where
  method : μ
  str : Str
  text : Str

/-- The handlers of one kind: `_action_set`, `cg.actions` and the stubs; or `_notify_set`,
`cg.notify_handlers` and the stubs. -/
structure Registry (μ : Type) where
  declared : List Str
  handlers : List Str
  stubs : List (Stub μ)

/-- The state of the visitor, and the errors it has emitted. -/
structure State (μ : Type) where
  actions : Registry μ
  notifies : Registry μ
  errors : List String

/-- A translation unit starts with empty sets. -/
def State.init {μ : Type} : State μ := ⟨⟨[], [], []⟩, ⟨[], [], []⟩, []⟩

section

variable {μ : Type} (M : Methods μ)

/-! ## Names -/

/-- `get_action_name` -/
def getActionName (attrName : Str) (m : μ) : Str :=
  if attrName ≠ [] then attrName else M.nameAsString m

/-- `get_notify_pair` -/
def getNotifyPair (code act : Str) : Str := code ++ "::".toList ++ act

/-- `name.substr(0, name.find("::"))` and `name.substr(name.find("::")+2)`. -/
def splitPair : Str → Str × Str
  | ':' :: ':' :: rest => ([], rest)
  | c :: cs => (c :: (splitPair cs).1, (splitPair cs).2)
  | [] => ([], [])

/-! ## `create_dispatch` -/

def maxStackSize : Str := "512".toList

/-- The name of the generated function. -/
def stubName (funcName : Str) (m : μ) : Str :=
  funcName ++ M.nameAsString m ++ "_".toList ++ M.parentName m

/-- The variables that the parameters `i`, `i + 1`, … are read into. -/
def argReads : ℕ → List Str → Str
  | _, [] => []
  | i, tn :: tns =>
    (if tn = "_Bool".toList then "bool".toList else tn) ++ " arg".toList ++ Nat.toDigits 10 i ++
      "; ds >> arg".toList ++ Nat.toDigits 10 i ++ ";\n".toList ++ argReads (i + 1) tns

/-- The arguments of the call. -/
def argNames (n : ℕ) : Str :=
  ", ".toList.intercalate ((List.range n).map fun i => "arg".toList ++ Nat.toDigits 10 i)

/-- The text that `create_dispatch` writes for a method of the contract. -/
def stubText (hasUosiolib : Bool) (attr funcName str : Str) (m : μ) : Str :=
  (if hasUosiolib then
    "\n\n#include <uosiolib/datastream.hpp>\n#include <uosiolib/name.hpp>\n".toList
  else "\n\n#include <uosio/datastream.hpp>\n#include <uosio/name.hpp>\n".toList) ++
  ("extern \"C\" \x7b\nuint32_t action_data_size();\n" ++
    "uint32_t read_action_data(void*, uint32_t);\n__attribute__((weak, ").toList ++ attr ++
  "(\"".toList ++ str ++ ":".toList ++ stubName M funcName m ++ "\"))) void ".toList ++
  stubName M funcName m ++
  ("(unsigned long long r, unsigned long long c) \x7b\nsize_t as = ::action_data_size();\n" ++
    "void* buff = nullptr;\nif (as > 0) \x7b\nbuff = as >= ").toList ++ maxStackSize ++
  (" ? malloc(as) : alloca(as);\n::read_action_data(buff, as);\n\x7d\n" ++
    "uosio::datastream<const char*> ds\x7b(char*)buff, as\x7d;\n").toList ++
  argReads 0 (M.parameters m) ++ M.parentQualifiedName m ++
  "\x7buosio::name\x7br\x7d,uosio::name\x7bc\x7d,ds\x7d.".toList ++ M.nameAsString m ++
  "(".toList ++ argNames (M.parameters m).length ++ ");\x7d\x7d\n".toList

/-- `create_dispatch`: nothing is written for a method of another contract. -/
def createDispatch (hasUosiolib : Bool) (attr funcName str : Str) (m : μ) : List (Stub μ) :=
  if M.isUosioContract m then [⟨m, str, stubText M hasUosiolib attr funcName str m⟩] else []

/-- `create_action_dispatch` -/
def createActionDispatch (hasUosiolib : Bool) (str : Str) (m : μ) : List (Stub μ) :=
  createDispatch M hasUosiolib "uosio_wasm_action".toList "__uosio_action_".toList str m

/-- `create_notify_dispatch` -/
def createNotifyDispatch (hasUosiolib : Bool) (str : Str) (m : μ) : List (Stub μ) :=
  createDispatch M hasUosiolib "uosio_wasm_notify".toList "__uosio_notify_".toList str m

/-! ## `VisitCXXMethodDecl` -/

/-- What the two branches share: the checks of the name and of the method against what is known,
the stub, and the two insertions. -/
def visitHandler (mismatch elsewhere : String) (create : Str → μ → List (Stub μ))
    (r : Registry μ) (name : Str) (m : μ) : Registry μ × List String :=
  let (declared, errs) :=
    -- what the set finds is the name itself, so the comparison never fails
    match r.declared.find? (· = name) with
    | none => (name :: r.declared, [])
    | some itr => (r.declared, if itr ≠ name then [mismatch] else [])
  let (stubs, errs') :=
    if ¬ r.handlers.contains (M.nameAsString m) then
      if ¬ r.handlers.contains name then (r.stubs ++ create name m, []) else (r.stubs, [elsewhere])
    else (r.stubs, [])
  -- both names go into one set, so that no second stub is written
  (⟨declared, name :: M.nameAsString m :: r.handlers, stubs⟩, errs ++ errs')

/-- `validate_name` with a handler that emits the error. -/
def validate (str : Str) (err : String) : List String := if validateName str then [] else [err]

/-- The branch of `isUosioAction`. -/
def visitAction (hasUosiolib : Bool) (st : State μ) (attrName : Str) (m : μ) : State μ :=
  let name := getActionName M attrName m
  let (actions, errs) :=
    visitHandler M "action declaration doesn't match previous declaration"
      "action already defined elsewhere" (createActionDispatch M hasUosiolib) st.actions name m
  { st with
    actions
    errors := st.errors ++ validate name "action not a valid uosio name" ++ errs }

/-- The branch of `isUosioNotify`. -/
def visitNotify (hasUosiolib : Bool) (st : State μ) (code act : Str) (m : μ) : State μ :=
  let name := getNotifyPair code act
  let (first, second) := splitPair name
  let (notifies, errs) :=
    visitHandler M "notify handler declaration doesn't match previous declaration"
      "notification handler already defined elsewhere" (createNotifyDispatch M hasUosiolib)
      st.notifies name m
  { st with
    notifies
    errors := st.errors ++
      (if first ≠ "*".toList then validate first "invalid contract name" else []) ++
      validate second "invalid action name" ++ errs }

def visitCXXMethodDecl (hasUosiolib : Bool) (st : State μ) (decl : CXXMethodDecl μ) : State μ :=
  match decl.attr with
  | .action attrName => visitAction M hasUosiolib st attrName decl.method
  | .notify code act => visitNotify M hasUosiolib st code act decl.method
  | .none => st

/-- The declarations of a translation unit, in the order of the visits. -/
def visitAll (hasUosiolib : Bool) (decls : List (CXXMethodDecl μ)) : State μ :=
  decls.foldl (visitCXXMethodDecl M hasUosiolib) .init

end

end UosioCdt.Tools.Codegen
