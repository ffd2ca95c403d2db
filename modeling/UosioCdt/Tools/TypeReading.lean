import UosioCdt.Lib.PrefixTerms
import UosioCdt.Tools.TypeNames

/-!
# How the name of a type reads

The name of a type is read as a text of words and of the marks `[]` and `?`. The words are what
stands between the underscores, so brackets and commas are gone, and so is the difference between
the underscores of an identifier and those that `translate_type` puts between its parts.
-/

namespace UosioCdt.Tools.TypeNames

open PrefixTerms

/-! ## Texts -/

inductive Mark where
  | array
  | optional
deriving DecidableEq

def Mark.chars : Mark → Str
  | array => "[]".toList
  | optional => "?".toList

/-- The words of a name, with the marks behind them. -/
abbrev Reading := List (Str ⊕ Mark)

/-- A text written out: every word has an underscore in front of it. -/
def spell (text : Reading) : Str :=
  text.flatMap fun
    | .inl word => '_' :: word
    | .inr mark => mark.chars

/-- A word has no underscores and no marks in it. -/
def IsWord (word : Str) : Prop := ∀ c ∈ word, c.isAlphanum = true

instance (word : Str) : Decidable (IsWord word) := List.decidableBAll _ _

variable {text text' : Reading} {word : Str} {mark : Mark}

@[simp] lemma spell_nil : spell [] = [] := rfl

@[simp] lemma spell_word : spell (.inl word :: text) = '_' :: (word ++ spell text) := rfl

@[simp] lemma spell_mark : spell (.inr mark :: text) = mark.chars ++ spell text := rfl

lemma spell_append : spell (text ++ text') = spell text ++ spell text' := List.flatMap_append

lemma spell_words {words : List Str} (hne : words ≠ []) :
    spell (words.map .inl) = '_' :: "_".toList.intercalate words := by
  induction words with
  | nil => exact absurd rfl hne
  | cons w words ih =>
    cases words with
    | nil => simp
    | cons v words =>
      rw [List.map_cons, spell_word, ih (List.cons_ne_nil v words),
        List.intercalate_cons_of_ne_nil (List.cons_ne_nil v words)]
      simp

/-- The words of an identifier give it back. -/
lemma spell_splitOn (s : Str) : spell ((s.splitOn '_').map .inl) = '_' :: s := by
  rw [spell_words (List.splitOn_ne_nil '_' s)]
  exact congrArg _ (List.intercalate_splitOn '_')

lemma isWord_of_mem_splitOn {s : Str} (hs : ∀ c ∈ s, isIdChar c = true)
    (hw : word ∈ s.splitOn '_') : IsWord word := by
  induction s generalizing word with
  | nil =>
    rw [List.splitOn_nil, List.mem_singleton] at hw
    rw [hw]
    exact fun c hc => absurd hc List.not_mem_nil
  | cons x s ih =>
    have hs' : ∀ c ∈ s, isIdChar c = true := fun c hc => hs c (List.mem_cons_of_mem x hc)
    rw [List.splitOn_cons_eq_if_modifyHead] at hw
    by_cases hx : x = '_'
    · rw [if_pos (beq_iff_eq.mpr hx)] at hw
      rcases List.mem_cons.mp hw with rfl | hw
      · exact fun c hc => absurd hc List.not_mem_nil
      · exact ih hs' hw
    · rw [if_neg (by simpa using hx)] at hw
      cases hsplit : s.splitOn '_' with
      | nil => exact absurd hsplit (List.splitOn_ne_nil '_' s)
      | cons v vs =>
        rw [hsplit, List.modifyHead_cons] at hw
        rcases List.mem_cons.mp hw with rfl | hw
        · intro c hc
          rcases List.mem_cons.mp hc with rfl | hc
          · have hid := hs c List.mem_cons_self
            unfold isIdChar at hid
            simpa [hx] using hid
          · exact ih hs' (hsplit ▸ List.mem_cons_self) c hc
        · exact ih hs' (hsplit ▸ List.mem_cons_of_mem v hw)

variable (text) in
/-- A word ends where the next word, a mark or the end of the text is. -/
lemma takeWhile_word (hw : IsWord word) :
    (word ++ spell text).takeWhile Char.isAlphanum = word := by
  have hrest : (spell text).takeWhile Char.isAlphanum = [] := by
    cases text with
    | nil => rfl
    | cons x text =>
      cases x with
      | inl w => rfl
      | inr m => cases m <;> rfl
  rw [List.takeWhile_append_of_pos hw, hrest, List.append_nil]

/-- A text is determined by what it is written out as. -/
theorem spell_injective (h : ∀ w, .inl w ∈ text → IsWord w) (h' : ∀ w, .inl w ∈ text' → IsWord w)
    (heq : spell text = spell text') : text = text' := by
  induction text generalizing text' with
  | nil =>
    cases text' with
    | nil => rfl
    | cons y text' =>
      cases y with
      | inl w => cases heq
      | inr m => cases m <;> cases heq
  | cons x text ih =>
    have htail : ∀ w, .inl w ∈ text → IsWord w := fun w hw => h w (List.mem_cons_of_mem x hw)
    cases text' with
    | nil =>
      cases x with
      | inl w => cases heq
      | inr m => cases m <;> cases heq
    | cons y text' =>
      have htail' : ∀ w, .inl w ∈ text' → IsWord w := fun w hw => h' w (List.mem_cons_of_mem y hw)
      cases x with
      | inl w =>
        cases y with
        | inl w' =>
          have happ : w ++ spell text = w' ++ spell text' := (List.cons.inj heq).2
          -- the word is what stands in front of the next underscore or mark
          have hww : w = w' := by
            rw [← takeWhile_word text (h w List.mem_cons_self), happ,
              takeWhile_word text' (h' w' List.mem_cons_self)]
          subst hww
          rw [ih htail htail' (List.append_cancel_left happ)]
        | inr m => cases m <;> cases heq
      | inr m =>
        cases y with
        | inl w => cases m <;> cases heq
        | inr m' =>
          obtain rfl : m = m' := by
            cases m <;> cases m' <;> first | rfl | cases heq
          rw [ih htail htail' (List.append_cancel_left heq)]

/-! ## Types as terms -/

/-- What a type is made with. A leaf is a name, or a type that is only spelled. -/
inductive Head where
  | leaf (text : Str)
  | pair
  | tuple (n : ℕ)
  | template (text : Str) (n : ℕ)
deriving DecidableEq

/-- The words that a head is written with; without arguments an underscore is left at the end. -/
def Head.words : Head → List Str
  | leaf text => text.splitOn '_'
  | pair => ["pair".toList]
  | tuple 0 => ["tuple".toList, []]
  | tuple (_ + 1) => ["tuple".toList]
  | template text 0 => text.splitOn '_' ++ [[]]
  | template text (_ + 1) => text.splitOn '_'

abbrev TypeTerm := Term Head Mark

def leaf (text : Str) : TypeTerm := .node (.leaf text) [] []

/-- How a term reads. -/
def read (t : TypeTerm) : Reading := t.write Head.words

/-- The name that is written for a term. -/
def nameOf (t : TypeTerm) : Str := (spell (read t)).tail

/-- A sequence; one of `int8` is `bytes`. -/
def sequenceOf (t : TypeTerm) : TypeTerm :=
  if nameOf t = "int8".toList then leaf "bytes".toList else t.addMark .array

/-- The names of some templates are in the table. -/
def tableEntry (t : TypeTerm) : TypeTerm :=
  if translateName (nameOf t) = nameOf t then t else leaf (translateName (nameOf t))

variable (S : Spelling)

/-- A type that is only spelled. -/
def spelledLeaf (t : CppType) : TypeTerm := leaf (replaceInName (translateSpelled S t))

mutual

/-- A type as the term that its name writes. The arguments of a tuple are only spelled. -/
def term : CppType → TypeTerm
  | .named name => leaf (translateName name.text)
  | .sequence _ elem => sequenceOf (term elem)
  | .optional elem => (term elem).addMark .optional
  | .map key value => .node .pair [term key, term value] [.array]
  | .pair first second => .node .pair [term first, term second] []
  | .tuple args => .node (.tuple args.length) (args.map (spelledLeaf S)) []
  | .template name args => tableEntry (.node (.template name.text args.length) (terms args) [])

def terms : List CppType → List TypeTerm
  | [] => []
  | t :: ts => term t :: terms ts

end

/-- The term that the name of the struct of a type writes: of a map, one entry. The arguments of a
template are only spelled. -/
def structTerm : CppType → TypeTerm
  | .map key value => term S (.pair key value)
  | .template name args =>
    tableEntry (.node (.template name.text args.length) (args.map (spelledLeaf S)) [])
  | t => term S t

/-! ## Fields and layouts -/

variable (P : Program)

/-- The base of the struct of a type. -/
def baseTerm : CppType → Option TypeTerm
  | .map _ _ => none
  | .pair _ _ => none
  | .tuple _ => none
  | t => (P.base t).map (term P.spelling)

/-- The fields of the struct of a type. -/
def fieldTerms : CppType → List (String × TypeTerm)
  | .map key value => [("key", term P.spelling key), ("value", term P.spelling value)]
  | .pair first second => [("first", term P.spelling first), ("second", term P.spelling second)]
  | .tuple args => args.zipIdx.map fun (t, i) => ("field_" ++ toString i, term P.spelling t)
  | t => (P.members t).map fun (field, t) =>
    (field, if field = "transaction_extensions" then (leaf "extension".toList).addMark .array
      else term P.spelling t)

/-- What the declarations of a program say about the serialization of its types: of a name, in its
scope, and of an instance of a template with arguments of some layouts. -/
structure Layouts (Λ : Type) where
  named : TypeName → Λ
  sequence : Λ → Λ
  optional : Λ → Λ
  fields : List Λ → Λ
  template : TemplateName → List Λ → Λ

variable {Λ : Type} (I : Layouts Λ)

mutual

/-- How the values of a type are serialized. -/
def layout : CppType → Λ
  | .named name => I.named name
  | .sequence _ elem => I.sequence (layout elem)
  | .optional elem => I.optional (layout elem)
  | .map key value => I.sequence (I.fields [layout key, layout value])
  | .pair first second => I.fields [layout first, layout second]
  | .tuple args => I.fields (layouts args)
  | .template name args => I.template name (layouts args)

def layouts : List CppType → List Λ
  | [] => []
  | t :: ts => layout t :: layouts ts

end

/-! ## Differences that show -/

/-- The first difference of two terms shows in the text, or some word or mark occurs more often in the
one than in the other. -/
def Distinct (t u : TypeTerm) : Prop := t.Apart Head.words u ∨ ¬ (read t).Perm (read u)

/-- The structs of two types have the same base and the same fields. -/
def SameFields (t u : CppType) : Prop := baseTerm P t = baseTerm P u ∧ fieldTerms P t = fieldTerms P u

/-- Two types of different layouts differ where it shows, and so do the terms that name the structs of
two types when the structs have different fields. -/
structure DifferencesShow (P : Program) (I : Layouts Λ) (t u : CppType) : Prop where
  layouts : layout I t ≠ layout I u → Distinct (term P.spelling t) (term P.spelling u)
  structs : (addedStruct P t).isSome = true → (addedStruct P u).isSome = true →
    ¬ SameFields P t u → Distinct (structTerm P.spelling t) (structTerm P.spelling u)

/-- The bases and the fields of the structs of two types read the same. -/
def SameReading (t u : CppType) : Prop :=
  read ((baseTerm P t).getD (leaf [])) = read ((baseTerm P u).getD (leaf [])) ∧
    (fieldTerms P t).map (fun (field, v) => (field, read v)) =
      (fieldTerms P u).map fun (field, v) => (field, read v)

/-- Two types of different layouts, with the name of some struct, read differently, and so do the terms
that name the structs of two types when bases or fields of the structs read differently. -/
structure ReadingsDiffer (P : Program) (I : Layouts Λ) (t u : CppType) : Prop where
  layouts : layout I t ≠ layout I u →
    (∃ v, (addedStruct P v).isSome = true ∧
      read (structTerm P.spelling v) = read (term P.spelling t)) →
    read (term P.spelling t) ≠ read (term P.spelling u)
  structs : (addedStruct P t).isSome = true → (addedStruct P u).isSome = true →
    ¬ SameReading P t u → read (structTerm P.spelling t) ≠ read (structTerm P.spelling u)

/-- If the two types have one name, and it is that of a struct that is added for some type, they have
one layout; and the set that has the struct of `t` does not drop another struct for `u`. -/
def NamesAgree (P : Program) (I : Layouts Λ) (t u : CppType) : Prop :=
  (translateType P.spelling t = translateType P.spelling u →
    (∃ v st, addedStruct P v = some st ∧ st.name = String.ofList (translateType P.spelling t)) →
    layout I t = layout I u) ∧
  ∀ st su, addedStruct P t = some st → addedStruct P u = some su → su ∈ insertStruct [st] su

end UosioCdt.Tools.TypeNames
