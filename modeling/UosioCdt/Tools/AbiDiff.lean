import UosioCdt.Tools.Abi

/-!
# `uosio-abidiff`

The class `abidiff`: every section has its own search loops. What is printed is a list of reports,
up to an exception of the JSON library.
-/

namespace UosioCdt.Tools

/-! ## The output -/

inductive DiffSection where
  | version
  | struct
  | type
  | action
  | table
  | clause
  | variant
deriving DecidableEq, Repr

/-- What is printed for one difference. Of a clause it is the headline only. -/
inductive Report where
  | version (v w : AbiVersion)
  | struct (direction : Char) (s : AbiStruct)
  | type (direction : Char) (t : AbiTypedef)
  | action (direction : Char) (a : AbiAction)
  | table (direction : Char) (t : AbiTable)
  | clause (direction : Char)
  | variant (direction : Char) (v : AbiVariant)
deriving DecidableEq, Repr

def Report.sectionOf : Report → DiffSection
  | .version .. => .version
  | .struct .. => .struct
  | .type .. => .type
  | .action .. => .action
  | .table .. => .table
  | .clause .. => .clause
  | .variant .. => .variant

/-- The exceptions of `at(name)` and `at(index)`. -/
inductive JsonError where
  | keyNotFound (key : String)
  | invalidSubscript
deriving DecidableEq, Repr

/-- The reports, and the exception that ended them. -/
structure Output where
  reports : List Report
  error : Option JsonError
deriving DecidableEq, Repr

namespace Output

def nothing : Output := ⟨[], none⟩

def print (r : Report) : Output := ⟨[r], none⟩

/-- An exception keeps the second part from running. -/
def andThen (o p : Output) : Output :=
  match o.error with
  | some e => ⟨o.reports, some e⟩
  | none => ⟨o.reports ++ p.reports, p.error⟩

end Output

/-! ## The search loops -/

section loops

variable {α : Type}

/-- The loop over the definitions of one ABI: what is not found in the other is printed. -/
def findLoop (found : α → Except JsonError Bool) (print : α → Output) : List α → Output
  | [] => .nothing
  | x :: xs =>
    match found x with
    | .error e => ⟨[], some e⟩
    | .ok true => findLoop found print xs
    | .ok false => (print x).andThen (findLoop found print xs)

/-- The search for the namesake of a definition: `break` when the rest is not the same. -/
def foundLoop (name : α → String) (same : α → α → Bool) (x : α) : Bool → List α → Bool
  | found, [] => found
  | found, y :: ys =>
    if name x = name y then
      if ¬ same x y then found else foundLoop name same x true ys
    else foundLoop name same x found ys

end loops

/-- The loop over the fields of two structs, with `_found`. -/
def fieldsFound : Bool → List AbiField → List AbiField → Bool
  | found, f :: fs, g :: gs =>
    if f.name ≠ g.name ∨ f.type ≠ g.type then found else fieldsFound true fs gs
  | found, _, _ => found

/-- The search for the namesake of a struct. -/
def structFound (s : AbiStruct) : Bool → List AbiStruct → Bool
  | found, [] => found
  | found, t :: ts =>
    if s.name = t.name then
      if s.fields.length ≠ t.fields.length then found
      else if s.base ≠ t.base then found
      else structFound s (fieldsFound false s.fields t.fields) ts
    else structFound s found ts

/-- The loop over the alternatives of two variants; `break` leaves only this loop. -/
def compareTypes : List String → List String → Except JsonError Unit
  | [], _ => .ok ()
  | _ :: _, [] => .error .invalidSubscript
  | x :: xs, y :: ys => if x ≠ y then .ok () else compareTypes xs ys

/-- The search for the namesake of a variant. -/
def variantFound (v : AbiVariant) : Bool → List AbiVariant → Except JsonError Bool
  | found, [] => .ok found
  | found, w :: ws =>
    if v.name = w.name then do
      compareTypes v.types w.types
      variantFound v true ws
    else variantFound v found ws

/-! ## The sections -/

section find

variable (abi1 abi2 : Abi) (direction : Char)

/-- `find_structs` -/
def findStructs : Output :=
  findLoop (fun s => .ok (structFound s false abi2.structs)) (fun s => .print (.struct direction s))
    abi1.structs

/-- `find_types` -/
def findTypes : Output :=
  findLoop
    (fun t => .ok (foundLoop AbiTypedef.newTypeName (fun x y => x.type == y.type) t false abi2.types))
    (fun t => .print (.type direction t)) abi1.types

/-- `find_actions` -/
def findActions : Output :=
  findLoop
    (fun a => .ok (foundLoop AbiAction.name
      (fun x y => x.type == y.type && x.ricardianContract == y.ricardianContract) a false
      abi2.actions))
    (fun a => .print (.action direction a)) abi1.actions

/-- `find_tables` -/
def findTables : Output :=
  findLoop (fun t => .ok (foundLoop AbiTable.name (fun x y => x.type == y.type) t false abi2.tables))
    (fun t => .print (.table direction t)) abi1.tables

/-- `find_clauses`: after the headline, `print_clause` looks the clause up under the key `clauses`,
which an ABI does not have. -/
def findClauses : Output :=
  findLoop
    (fun c => .ok (foundLoop AbiRicardianClausePair.id (fun x y => x.body == y.body) c false
      abi2.ricardianClauses))
    (fun _ => ⟨[.clause direction], some (.keyNotFound "clauses")⟩) abi1.ricardianClauses

/-- `find_variants` -/
def findVariants : Output :=
  findLoop (fun v => variantFound v false abi2.variants) (fun v => .print (.variant direction v))
    abi1.variants

end find

/-- `diff_version` -/
def diffVersion (abi1 abi2 : Abi) : Output :=
  if abi1.version.number ≠ abi2.version.number then .print (.version abi1.version abi2.version)
  else .nothing

/-- `diff_structs`, `diff_types` and so on: the two directions of a search. -/
def diffWith (find : Abi → Abi → Char → Output) (abi1 abi2 : Abi) : Output :=
  (find abi1 abi2 '<').andThen (find abi2 abi1 '>')

/-- `diff_variants` is called for two ABIs of version 1.1 or later. -/
def diffVariants (abi1 abi2 : Abi) : Output :=
  if abi1.version.number ≥ 11 ∧ abi2.version.number ≥ 11 then diffWith findVariants abi1 abi2
  else .nothing

/-- `diff` -/
def diff (abi1 abi2 : Abi) : Output :=
  (diffVersion abi1 abi2).andThen <| (diffWith findStructs abi1 abi2).andThen <|
    (diffWith findTypes abi1 abi2).andThen <| (diffWith findActions abi1 abi2).andThen <|
      (diffWith findTables abi1 abi2).andThen <| (diffWith findClauses abi1 abi2).andThen <|
        diffVariants abi1 abi2

end UosioCdt.Tools
