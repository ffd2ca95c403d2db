import UosioCdt.Tools.AbiGen
import UosioCdt.Tools.Name

/-!
# `translate_type` — the names of types in an ABI

The generator names a C++ type by its parts, and the structs that it adds for pairs, maps, tuples,
templates and records go into a set by name. A type is a tree here; how clang spells it
(`QualType::getAsString`) is data of the program.
-/

namespace UosioCdt.Tools.TypeNames

/-! ## Types -/

def isIdChar (c : Char) : Bool := c.isAlphanum || c = '_'

/-- `_translate_type` of a name. -/
def translateName (t : Str) : Str := (translateType (String.ofList t)).toList

/-- The name of a type that is no template, in its namespaces and classes. `_translate_type` makes an
identifier of it; only names that stand in no scope have blanks. -/
structure TypeName where
  scope : List Str
  text : Str
  scopeIsIdentifier : ∀ s ∈ scope, ∀ c ∈ s, isIdChar c = true
  isIdentifier : ∀ c ∈ translateName text, isIdChar c = true
  isIdentifier_of_scope : scope ≠ [] → ∀ c ∈ text, isIdChar c = true

/-- The templates that `translate_type` knows by name. -/
def knownTemplates : List Str :=
  ["ignore".toList, "binary_extension".toList, "vector".toList, "set".toList, "deque".toList,
    "list".toList, "optional".toList, "map".toList, "pair".toList, "tuple".toList]

/-- The name of a template of the contract, in its namespaces and classes. -/
structure TemplateName where
  scope : List Str
  text : Str
  scopeIsIdentifier : ∀ s ∈ scope, ∀ c ∈ s, isIdChar c = true
  isIdentifier : ∀ c ∈ text, isIdChar c = true
  notKnown : text ∉ knownTemplates

inductive SequenceKind where
  | vector
  | set
  | deque
  | list
deriving DecidableEq

/-- An integer argument of a template counts as a name made of its digits. -/
inductive CppType where
  | named (name : TypeName)
  | sequence (kind : SequenceKind) (elem : CppType)
  | optional (elem : CppType)
  | map (key value : CppType)
  | pair (first second : CppType)
  | tuple (args : List CppType)
  | template (name : TemplateName) (args : List CppType)

/-- Induction on a type, with the statement for every argument. -/
@[elab_as_elim]
theorem CppType.inductionOn {P : CppType → Prop} (named : ∀ name, P (.named name))
    (sequence : ∀ kind elem, P elem → P (.sequence kind elem))
    (optional : ∀ elem, P elem → P (.optional elem))
    (map : ∀ key value, P key → P value → P (.map key value))
    (pair : ∀ first second, P first → P second → P (.pair first second))
    (tuple : ∀ args, (∀ t ∈ args, P t) → P (.tuple args))
    (template : ∀ name args, (∀ t ∈ args, P t) → P (.template name args)) : ∀ t, P t
  | .named name => named name
  | .sequence kind elem =>
    sequence kind elem (inductionOn named sequence optional map pair tuple template elem)
  | .optional elem => optional elem (inductionOn named sequence optional map pair tuple template elem)
  | .map key value =>
    map key value (inductionOn named sequence optional map pair tuple template key)
      (inductionOn named sequence optional map pair tuple template value)
  | .pair first second =>
    pair first second (inductionOn named sequence optional map pair tuple template first)
      (inductionOn named sequence optional map pair tuple template second)
  | .tuple args =>
    tuple args fun t _ => inductionOn named sequence optional map pair tuple template t
  | .template name args =>
    template name args fun t _ => inductionOn named sequence optional map pair tuple template t

/-! ## `get_base_type_name` -/

def validPrefixes : List Str := ["long".toList, "signed".toList, "unsigned".toList]

/-- The loop from position `i` down; `fuel` bounds its rounds. -/
def baseTypeNameFrom (typeStr : Str) : ℕ → ℕ → ℤ → Str
  | 0, _, _ => typeStr
  | fuel + 1, i, templateNested =>
    if i = 0 then typeStr
    else
      let c := typeStr.getD i ' '
      let templateNested :=
        if c = '>' then templateNested + 1 else if c = '<' then templateNested - 1
        else templateNested
      -- the namespaces in front end here
      if c = ':' ∧ templateNested = 0 then typeStr.drop (i + 1)
      else if c = ' ' ∧ templateNested = 0 then
        -- `long`, `signed` and `unsigned` stay, any other word in front goes
        match validPrefixes.find? fun s =>
            s.length ≤ i ∧ (typeStr.drop (i - s.length)).take s.length = s ∧
              (i - s.length = 0 ∨ typeStr.getD (i - s.length - 1) 'x' = ' ') with
        | some s => baseTypeNameFrom typeStr fuel (i - s.length - 1) templateNested
        | none => typeStr.drop (i + 1)
      else baseTypeNameFrom typeStr fuel (i - 1) templateNested

/-- `get_base_type_name`: without the words and the namespaces in front. -/
def getBaseTypeName (typeStr : Str) : Str :=
  baseTypeNameFrom typeStr typeStr.length (typeStr.length - 1) 0

/-! ## `translate_type` -/

/-- The characters that `replace_in_name` replaces. -/
def isReplaced (c : Char) : Bool := c = '<' || c = '>' || c = ',' || c = ' ' || c = ':'

/-- `replace_in_name` -/
def replaceInName (name : Str) : Str := name.map fun c => if isReplaced c then '_' else c

/-- How clang spells the types of a program. Names are spelled with what `get_base_type_name` takes
off, and templates with their arguments. -/
structure Spelling where
  getAsString : CppType → Str
  legal : ∀ t, ∀ c ∈ getAsString t, isIdChar c = true ∨ isReplaced c = true
  named : ∀ name, getBaseTypeName (getAsString (.named name)) = name.text

variable (S : Spelling)

/-- `_translate_type` of a type. -/
def translateSpelled (t : CppType) : Str := translateName (getBaseTypeName (S.getAsString t))

mutual

def translateType : CppType → Str
  | .named name => translateSpelled S (.named name)
  | .sequence _ elem =>
    let t := translateType elem
    -- `if (t == "int8") return "bytes"`
    if t = "int8".toList then "bytes".toList else t ++ "[]".toList
  | .optional elem => translateType elem ++ "?".toList
  | .map key value =>
    replaceInName ("pair_".toList ++ translateType key ++ "_".toList ++ translateType value ++
      "[]".toList)
  | .pair first second =>
    replaceInName ("pair_".toList ++ translateType first ++ "_".toList ++ translateType second)
  | .tuple args =>
    replaceInName ("tuple_".toList ++ "_".toList.intercalate (args.map (translateSpelled S)))
  | .template name args =>
    translateName (replaceInName (name.text ++ "_".toList ++ translateArgs args))

/-- The loop over the arguments of a template. -/
def translateArgs : List CppType → Str
  | [] => []
  | t :: ts => translateType t ++ if ts.isEmpty then [] else "_".toList ++ translateArgs ts

end

/-- `get_template_name` -/
def getTemplateName (name : TemplateName) (args : List CppType) : Str :=
  translateName (replaceInName
    (name.text ++ "_".toList ++ "_".toList.intercalate (args.map (translateSpelled S))))

/-! ## The structs of `add_type` -/

/-- What the generator reads of a program: the spelling of the types, which names are records and no
aliases, and the base, if it is the only one, and the fields of a record or of an instance of a
template. -/
structure Program where
  spelling : Spelling
  isRecord : TypeName → Bool
  base : CppType → Option CppType
  members : CppType → List (String × CppType)

variable (P : Program)

def abiField (name : String) (t : CppType) : AbiField :=
  ⟨name, String.ofList (translateType P.spelling t)⟩

/-- The struct of `add_tuple`. -/
def addTuple (args : List CppType) : AbiStruct where
  name := String.ofList (translateType P.spelling (.tuple args))
  base := ""
  fields := args.zipIdx.map fun (t, i) => abiField P ("field_" ++ toString i) t

/-- The struct of `add_pair`. -/
def addPair (first second : CppType) : AbiStruct where
  name := String.ofList (translateType P.spelling (.pair first second))
  base := ""
  fields := [abiField P "first" first, abiField P "second" second]

/-- The struct of `add_map`: the name of the type without its last two characters. -/
def addMap (key value : CppType) : AbiStruct where
  name :=
    let name := translateType P.spelling (.map key value)
    String.ofList (name.take (name.length - 2))
  base := ""
  fields := [abiField P "key" key, abiField P "value" value]

/-- The struct of `add_struct`, for a record or an instance of a template. -/
def addStruct (t : CppType) (name : Str) : AbiStruct where
  name := String.ofList name
  base :=
    match P.base t with
    | some base => String.ofList (translateType P.spelling base)
    | none => ""
  fields := (P.members t).map fun (field, t) =>
    if field = "transaction_extensions" then ⟨"transaction_extensions", "extension[]"⟩
    else abiField P field t

/-- The struct that `add_type` adds for the type itself, if any. -/
def addedStruct (t : CppType) : Option AbiStruct :=
  if isBuiltinType (String.ofList (translateType P.spelling t)) then none
  else
    match t with
    | .named name => if P.isRecord name then some (addStruct P t name.text) else none
    | .sequence _ _ => none
    | .optional _ => none
    | .map key value => some (addMap P key value)
    | .pair first second => some (addPair P first second)
    | .tuple args => some (addTuple P args)
    | .template name args =>
      if name.text = "variant".toList then none
      else some (addStruct P t (getTemplateName P.spelling name args))

/-- `_abi.structs.insert`: a struct of a known name is dropped. -/
def insertStruct (structs : List AbiStruct) (s : AbiStruct) : List AbiStruct :=
  if structs.any fun known => known.name = s.name then structs else s :: structs

end UosioCdt.Tools.TypeNames
