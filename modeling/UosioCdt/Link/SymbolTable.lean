import UosioCdt.Link.Indexes

/-!
# The symbol table of the linker

The object files are parsed one after another, and every symbol of one is defined in the table or
looked up in it. An archive puts the names of its index there as lazy symbols; the member behind one
is parsed as soon as a symbol of the name is missing, which may happen while another file is parsed.
-/

namespace UosioCdt.Link.Symtab

/-! ## Symbols -/

/-- `WasmGlobalType` -/
structure WasmGlobalType where
  type : UInt8
  isMutable : Bool
deriving DecidableEq

/-- `WasmSymbolType`, with what is compared of two symbols of the type. A function that was forced
with `--undefined` has no signature. Symbols of sections are local and do not get into the table. -/
inductive SymbolType where
  | function (sig : Option WasmSignature)
  | data
  | global (type : WasmGlobalType)
deriving DecidableEq

/-- `WASM_SYMBOL_BINDING_GLOBAL`, `WASM_SYMBOL_BINDING_WEAK` and `WASM_SYMBOL_BINDING_LOCAL` -/
inductive Binding where
  | bindingGlobal
  | bindingWeak
  | bindingLocal
deriving DecidableEq

/-- A symbol of an object file. It defines something, which may belong to the comdat of that number,
or refers to something. -/
structure WasmSymbol (ν ε : Type) where
  name : ν
  type : SymbolType
  binding : Binding
  definition : Option ε
  comdat : Option ℕ

def WasmSymbol.isWeak {ν ε : Type} (sym : WasmSymbol ν ε) : Bool := sym.binding = .bindingWeak

/-- What `parse` reads of an object file. -/
structure ObjFile (ν ε χ : Type) where
  comdats : List χ
  symbols : List (WasmSymbol ν ε)
  allowedImports : List ν

/-- The kinds of symbols in the table, with the type, the weak flag and the file. The linker's own
symbols have no file. -/
inductive Kind (φ ε : Type) where
  | defined (type : SymbolType) (weak : Bool) (file : Option φ) (definition : ε)
  | undefined (type : SymbolType) (weak : Bool) (file : Option φ)
  | lazyKind (member : φ)

structure Symbol (φ ε : Type) where
  kind : Kind φ ε
  isUsedInRegularObj : Bool

/-- The type and the file of a symbol that is not lazy. -/
def Kind.declared {φ ε : Type} : Kind φ ε → Option (SymbolType × Option φ)
  | .defined type _ file _ => some (type, file)
  | .undefined type _ file => some (type, file)
  | .lazyKind _ => none

/-- What the linker reports: the symbol, what was there and what is new. -/
inductive Message (ν φ : Type) where
  | symbolTypeMismatch (name : ν) (old : SymbolType) (oldFile : Option φ) (new : SymbolType)
      (file : Option φ)
  | functionTypeMismatch (name : ν) (old : WasmSignature) (oldFile : Option φ) (new : WasmSignature)
      (file : Option φ)
  | globalTypeMismatch (name : ν) (old : WasmGlobalType) (oldFile : Option φ) (new : WasmGlobalType)
      (file : Option φ)
  | duplicateSymbol (name : ν) (oldFile file : Option φ)
  | unknownFileType (member : φ)

/-- `error` and not `warn` -/
def Message.isError {ν φ : Type} : Message ν φ → Bool
  | .functionTypeMismatch .. => false
  | _ => true

/-- An object file that has been parsed, with its `UsedComdats`. -/
structure LoadedFile (ν φ ε χ : Type) where
  file : φ
  obj : ObjFile ν ε χ
  usedComdats : List Bool

/-- `SymbolTable`: `SymMap`, `SymVector`, `allowed`, `Comdats` and `ObjectFiles`, with what has been
reported. `seen` is `Seen` of all archives; a member is known by its archive and its offset in
it. -/
structure Table (ν φ ε χ : Type) where
  find : ν → Option (Symbol φ ε)
  symVector : List ν
  allowed : List ν
  comdats : List χ
  seen : List φ
  objectFiles : List (LoadedFile ν φ ε χ)
  messages : List (Message ν φ)

section

variable {ν φ ε χ : Type} [DecidableEq ν] [DecidableEq φ] [DecidableEq χ]

def Table.empty : Table ν φ ε χ := ⟨fun _ => none, [], [], [], [], [], []⟩

def Table.report (t : Table ν φ ε χ) (messages : List (Message ν φ)) : Table ν φ ε χ :=
  { t with messages := t.messages ++ messages }

/-- The errors that `errorCount` counts. -/
def Table.errors (t : Table ν φ ε χ) : List (Message ν φ) := t.messages.filter (·.isError)

/-- `insert` if there is no symbol of the name, and `replaceSymbol` -/
def Table.put (t : Table ν φ ε χ) (name : ν) (kind : Kind φ ε) (used : Bool) : Table ν φ ε χ :=
  { t with
    find := Function.update t.find name (some ⟨kind, used⟩)
    symVector := if (t.find name).isSome then t.symVector else t.symVector ++ [name] }

/-! ## Checks -/

/-- `checkFunctionType`, which only warns of different signatures. -/
def checkFunctionType (name : ν) (newSig : Option WasmSignature) (file : Option φ)
    (old : SymbolType) (oldFile : Option φ) : List (Message ν φ) :=
  match old, newSig with
  | .function (some oldSig), some sig =>
    if sig ≠ oldSig then [.functionTypeMismatch name oldSig oldFile sig file] else []
  | .function _, _ => []
  | _, _ => [.symbolTypeMismatch name old oldFile (.function newSig) file]

/-- `checkGlobalType` -/
def checkGlobalType (name : ν) (newType : WasmGlobalType) (file : Option φ) (old : SymbolType)
    (oldFile : Option φ) : List (Message ν φ) :=
  match old with
  | .global oldType =>
    if newType ≠ oldType then [.globalTypeMismatch name oldType oldFile newType file] else []
  | _ => [.symbolTypeMismatch name old oldFile (.global newType) file]

/-- `checkDataType` -/
def checkDataType (name : ν) (file : Option φ) (old : SymbolType) (oldFile : Option φ) :
    List (Message ν φ) :=
  match old with
  | .data => []
  | _ => [.symbolTypeMismatch name old oldFile .data file]

/-- `shouldReplace`, with what it reports. -/
def shouldReplace (name : ν) (existing : Kind φ ε) (file : Option φ) (weak : Bool) :
    Bool × List (Message ν φ) :=
  match existing with
  | .defined _ oldWeak oldFile _ =>
    if weak then (false, [])
    else if oldWeak then (true, [])
    else (true, [.duplicateSymbol name oldFile file])
  | _ => (true, [])

/-! ## Definitions -/

/-- What the three functions for definitions share; `check` is the check of the type. -/
def addDefined (check : SymbolType → Option φ → List (Message ν φ)) (name : ν) (type : SymbolType)
    (weak : Bool) (file : φ) (definition : ε) (t : Table ν φ ε χ) : Table ν φ ε χ :=
  match t.find name with
  | none => t.put name (.defined type weak file definition) true
  | some s =>
    match s.kind.declared with
    | none => t.put name (.defined type weak file definition) true
    | some (old, oldFile) =>
      let (replace, messages) := shouldReplace name s.kind file weak
      (t.report (check old oldFile ++ messages)).put name
        (if replace then .defined type weak file definition else s.kind) true

/-- `addDefinedFunction` does not check the type of the entry. -/
def addDefinedFunction (entry name : ν) (sig : Option WasmSignature) (weak : Bool) (file : φ)
    (function : ε) : Table ν φ ε χ → Table ν φ ε χ :=
  addDefined
    (fun old oldFile => if name = entry then [] else checkFunctionType name sig file old oldFile)
    name (.function sig) weak file function

/-- `addDefinedData` -/
def addDefinedData (name : ν) (weak : Bool) (file : φ) (segment : ε) :
    Table ν φ ε χ → Table ν φ ε χ :=
  addDefined (checkDataType name file) name .data weak file segment

/-- `addDefinedGlobal` -/
def addDefinedGlobal (name : ν) (type : WasmGlobalType) (weak : Bool) (file : φ) (global : ε) :
    Table ν φ ε χ → Table ν φ ε χ :=
  addDefined (checkGlobalType name type file) name (.global type) weak file global

/-- `addSyntheticFunction`, `addSyntheticGlobal` and `addSyntheticDataSymbol` -/
def addSynthetic (name : ν) (type : SymbolType) (weak : Bool) (definition : ε)
    (t : Table ν φ ε χ) : Table ν φ ε χ :=
  t.put name (.defined type weak none definition) false

/-! ## References

`load` is `addMember` of the archive of the member.
-/

/-- What the three functions for references share; `used` says whether the function sets
`IsUsedInRegularObj`. -/
def addUndefined (load : φ → Table ν φ ε χ → Table ν φ ε χ)
    (check : SymbolType → Option φ → List (Message ν φ)) (used : Bool) (name : ν)
    (type : SymbolType) (weak : Bool) (file : Option φ) (t : Table ν φ ε χ) : Table ν φ ε χ :=
  match t.find name with
  | none => t.put name (.undefined type weak file) used
  | some s =>
    let t := t.put name s.kind (s.isUsedInRegularObj || used)
    match s.kind with
    | .lazyKind member => load member t
    | .defined old _ oldFile _ => t.report (check old oldFile)
    | .undefined .. => t

/-- `addUndefinedFunction` -/
def addUndefinedFunction (load : φ → Table ν φ ε χ → Table ν φ ε χ) (name : ν)
    (sig : Option WasmSignature) (weak : Bool) (file : Option φ) :
    Table ν φ ε χ → Table ν φ ε χ :=
  addUndefined load (checkFunctionType name sig file) true name (.function sig) weak file

/-- `addUndefinedData` does not set `IsUsedInRegularObj`. -/
def addUndefinedData (load : φ → Table ν φ ε χ → Table ν φ ε χ) (name : ν) (weak : Bool)
    (file : Option φ) : Table ν φ ε χ → Table ν φ ε χ :=
  addUndefined load (checkDataType name file) false name .data weak file

/-- `addUndefinedGlobal` -/
def addUndefinedGlobal (load : φ → Table ν φ ε χ → Table ν φ ε χ) (name : ν)
    (type : WasmGlobalType) (weak : Bool) (file : Option φ) : Table ν φ ε χ → Table ν φ ε χ :=
  addUndefined load (checkGlobalType name type file) true name (.global type) weak file

/-- `addLazy`, of an entry of the index of an archive. -/
def addLazy (load : φ → Table ν φ ε χ → Table ν φ ε χ) (t : Table ν φ ε χ) (listed : ν × φ) :
    Table ν φ ε χ :=
  match t.find listed.1 with
  | none => t.put listed.1 (.lazyKind listed.2) false
  | some s =>
    match s.kind with
    | .undefined .. => load listed.2 t
    | _ => t

/-! ## Files -/

/-- `addComdat` of one comdat after another: `UsedComdats` of a file, and `Comdats`. -/
def addComdats (comdats : List χ) : List χ → List Bool × List χ
  | [] => ([], comdats)
  | name :: names =>
    let used := name ∉ comdats
    let (rest, comdats) := addComdats (if used then comdats ++ [name] else comdats) names
    (used :: rest, comdats)

/-- `isExcludedByComdat`, which is not asked about globals. -/
def isExcludedByComdat (usedComdats : List Bool) (sym : WasmSymbol ν ε) : Bool :=
  match sym.type, sym.comdat with
  | .global _, _ => false
  | _, none => false
  | _, some c => usedComdats[c]? = some false

/-- `createDefined`, or `none` where it returns null. A local symbol does not get into the table. -/
def createDefined (entry : ν) (file : φ) (usedComdats : List Bool) (sym : WasmSymbol ν ε)
    (t : Table ν φ ε χ) : Option (Table ν φ ε χ) :=
  match sym.definition with
  | none => none
  | some definition =>
    if isExcludedByComdat usedComdats sym then none
    else if sym.binding = .bindingLocal then some t
    else some <|
      match sym.type with
      | .function sig => addDefinedFunction entry sym.name sig sym.isWeak file definition t
      | .data => addDefinedData sym.name sym.isWeak file definition t
      | .global type => addDefinedGlobal sym.name type sym.isWeak file definition t

/-- `createUndefined` -/
def createUndefined (load : φ → Table ν φ ε χ → Table ν φ ε χ) (file : φ) (sym : WasmSymbol ν ε) :
    Table ν φ ε χ → Table ν φ ε χ :=
  match sym.type with
  | .function sig => addUndefinedFunction load sym.name sig sym.isWeak file
  | .data => addUndefinedData load sym.name sym.isWeak file
  | .global type => addUndefinedGlobal load sym.name type sym.isWeak file

/-- The body of the loop over the symbols of an object file. -/
def addSymbol (entry : ν) (load : φ → Table ν φ ε χ → Table ν φ ε χ)
    (loaded : LoadedFile ν φ ε χ) (t : Table ν φ ε χ) (sym : WasmSymbol ν ε) : Table ν φ ε χ :=
  let t :=
    if sym.name ∈ loaded.obj.allowedImports then { t with allowed := t.allowed ++ [sym.name] }
    else t
  (createDefined entry loaded.file loaded.usedComdats sym t).getD
    (createUndefined load loaded.file sym t)

/-- `addFile` of an object file, with `ObjFile::parse`. -/
def addFile (entry : ν) (load : φ → Table ν φ ε χ → Table ν φ ε χ) (file : φ)
    (obj : ObjFile ν ε χ) (t : Table ν φ ε χ) : Table ν φ ε χ :=
  let (usedComdats, comdats) := addComdats t.comdats obj.comdats
  let loaded := ⟨file, obj, usedComdats⟩
  let t := obj.symbols.foldl (addSymbol entry load loaded) { t with comdats := comdats }
  { t with objectFiles := t.objectFiles ++ [loaded] }

/-- `addMember`, and with it all members that the file of the member needs. `fuel` bounds how deep
the parsing of files is nested. -/
def addMember (entry : ν) (content : φ → Option (ObjFile ν ε χ)) :
    ℕ → φ → Table ν φ ε χ → Table ν φ ε χ
  | 0, _, t => t
  | fuel + 1, member, t =>
    if member ∈ t.seen then t
    else
      let t := { t with seen := t.seen ++ [member] }
      match content member with
      | none => t.report [.unknownFileType member]
      | some obj => addFile entry (addMember entry content fuel) member obj t

/-! ## The driver -/

/-- A file of the command line: an object file, or the index of an archive. -/
inductive InputFile (ν φ ε χ : Type) where
  | object (file : φ) (obj : ObjFile ν ε χ)
  | archive (index : List (ν × φ))

/-- The entries of an archive. -/
def InputFile.index : InputFile ν φ ε χ → List (ν × φ)
  | .object .. => []
  | .archive index => index

def InputFile.objects : InputFile ν φ ε χ → List (φ × ObjFile ν ε χ)
  | .object file obj => [(file, obj)]
  | .archive _ => []

/-- A symbol of the linker itself. -/
structure Synthetic (ν ε : Type) where
  name : ν
  type : SymbolType
  weak : Bool
  definition : ε

/-- What `link` is given: the symbols of the linker, the names that `--undefined` and `--entry`
force, the files, the objects behind the members of archives, `AllowUndefinedSymbols`, and the stub
of an undefined function. No file of the command line is a member. -/
structure Input (ν φ ε χ : Type) where
  entry : ν
  synthetics : List (Synthetic ν ε)
  forced : List ν
  files : List (InputFile ν φ ε χ)
  content : φ → Option (ObjFile ν ε χ)
  allowUndefinedSymbols : List ν
  stub : ν → ε
  synthetics_nodup : (synthetics.map (·.name)).Nodup
  member_ne : ∀ listed ∈ files.flatMap (·.index), ∀ object ∈ files.flatMap (·.objects),
    listed.2 ≠ object.1

namespace Input

variable (I : Input ν φ ε χ)

/-- The entries of all archives. -/
def index : List (ν × φ) := I.files.flatMap (·.index)

/-- The object files of the command line. -/
def objects : List (φ × ObjFile ν ε χ) := I.files.flatMap (·.objects)

/-- No file is parsed inside of more files than there are members. -/
def load : φ → Table ν φ ε χ → Table ν φ ε χ := addMember I.entry I.content I.index.length

/-- The symbols that are there before all files. -/
def initial : Table ν φ ε χ :=
  I.forced.foldl (fun t name => addUndefinedFunction I.load name none false none t)
    (I.synthetics.foldl (fun t s => addSynthetic s.name s.type s.weak s.definition t) Table.empty)

/-- `addFile` of a file of the command line. -/
def addInput (t : Table ν φ ε χ) : InputFile ν φ ε χ → Table ν φ ε χ
  | .object file obj => addFile I.entry I.load file obj t
  | .archive index => index.foldl (addLazy I.load) t

/-- The symbol table when all files have been added. -/
def link : Table ν φ ε χ := I.files.foldl I.addInput I.initial

/-- The body of the loop of `handleWeakUndefines` -/
def defineStub (t : Table ν φ ε χ) (name : ν) : Table ν φ ε χ :=
  match t.find name with
  | some ⟨.undefined (.function sig) true _, used⟩ =>
    t.put name (.defined (.function sig) false none (I.stub name)) used
  | _ => t

/-- `handleWeakUndefines` gives a body to the functions that only have weak references. -/
def handleWeakUndefines (t : Table ν φ ε χ) : Table ν φ ε χ := t.symVector.foldl I.defineStub t

end Input

/-! ## Undefined symbols -/

/-- The names of the symbols of a file that are in the table. -/
def LoadedFile.tableNames (p : LoadedFile ν φ ε χ) : List ν :=
  (p.obj.symbols.filter fun sym => sym.definition.isNone ||
    isExcludedByComdat p.usedComdats sym || sym.binding ≠ .bindingLocal).map (·.name)

/-- `Undefs` of `reportRemainingUndefines` -/
def Input.undefs (I : Input ν φ ε χ) (t : Table ν φ ε χ) : List ν :=
  t.symVector.filter fun name =>
    match t.find name with
    | some ⟨.undefined _ weak _, used⟩ =>
      !weak && (name ∉ I.allowUndefinedSymbols) && (name ∉ t.allowed) && used
    | _ => false

/-- The file of an undefined symbol. -/
def Table.fileOf (t : Table ν φ ε χ) (name : ν) : Option φ :=
  match t.find name with
  | some ⟨.undefined _ _ file, _⟩ => file
  | _ => none

/-- `reportRemainingUndefines`: the files and the names in its errors. -/
def Input.reportRemainingUndefines (I : Input ν φ ε χ) (t : Table ν φ ε χ) : List (Option φ × ν) :=
  t.objectFiles.flatMap (fun p =>
    (p.tableNames.filter (· ∈ I.undefs t)).map fun name => (some p.file, name)) ++
  ((I.undefs t).filter fun name => (t.fileOf name).isNone && name ≠ I.entry).map fun name =>
    (none, name)

end

end UosioCdt.Link.Symtab
