import Mathlib.Data.List.GetD
import UosioCdt.Tools.TypeNamesTheorems

/-!
# Theorems: types with one name and their layouts

Two types with one name need not have the same layout, and their structs need not be the same. They
have and are when the difference between two types of different layouts, or between the terms of two
different structs, shows in the text.
-/

namespace UosioCdt.Tools.TypeNames

open PrefixTerms

/-! ## When names stand for layouts -/

variable {Λ : Type} {t u : CppType}

lemma Distinct.read_ne {v w : TypeTerm} (h : Distinct v w) : read v ≠ read w := by
  rcases h with happart | hcount
  · exact happart.write_ne
  · intro heq
    rw [heq] at hcount
    exact hcount (List.Perm.refl _)

lemma mem_insertStruct_iff {st su : AbiStruct} :
    su ∈ insertStruct [st] su ↔ (st.name = su.name → st = su) := by
  unfold insertStruct
  by_cases hname : st.name = su.name
  · simp [hname, eq_comm]
  · simp [hname]

variable {P : Program} {I : Layouts Λ}

lemma SameFields.sameReading (h : SameFields P t u) : SameReading P t u := by
  unfold SameReading
  rw [h.1, h.2]
  exact ⟨rfl, rfl⟩

lemma DifferencesShow.readingsDiffer (h : DifferencesShow P I t u) : ReadingsDiffer P I t u := by
  constructor
  · intro hne _
    exact (h.layouts hne).read_ne
  · intro ht hu hread
    have hfields : ¬ SameFields P t u := fun hsame => hread hsame.sameReading
    exact (h.structs ht hu hfields).read_ne

/-- Some added struct has the name of a type exactly when the term of some struct's name reads like
the type. -/
lemma exists_struct_iff :
    (∃ v st, addedStruct P v = some st ∧ st.name = String.ofList (translateType P.spelling t)) ↔
      ∃ v, (addedStruct P v).isSome = true ∧
        read (structTerm P.spelling v) = read (term P.spelling t) := by
  -- both names are written out readings
  have hname {v : CppType} {st : AbiStruct} (hv : addedStruct P v = some st) :
      st.name = String.ofList (translateType P.spelling t) ↔
        read (structTerm P.spelling v) = read (term P.spelling t) := by
    rw [← spell_read_eq_iff (legal_structTerm v) (legal_heads t), spell_structTerm hv, spell_term,
      List.cons_inj_right, ← String.toList_inj, String.toList_ofList]
  constructor
  · rintro ⟨v, st, hv, hst⟩
    exact ⟨v, Option.isSome_of_eq_some hv, (hname hv).mp hst⟩
  · rintro ⟨v, hv, hread⟩
    obtain ⟨st, hst⟩ := Option.isSome_iff_exists.mp hv
    exact ⟨v, st, hst, (hname hst).mpr hread⟩

/-- The struct of `u` is not dropped exactly when the names of different structs read differently. -/
lemma structs_kept_iff :
    (∀ st su, addedStruct P t = some st → addedStruct P u = some su → su ∈ insertStruct [st] su) ↔
      ((addedStruct P t).isSome = true → (addedStruct P u).isSome = true → ¬ SameReading P t u →
        read (structTerm P.spelling t) ≠ read (structTerm P.spelling u)) := by
  constructor
  · intro h ht hu hsame hread
    obtain ⟨st, hst⟩ := Option.isSome_iff_exists.mp ht
    obtain ⟨su, hsu⟩ := Option.isSome_iff_exists.mp hu
    have hname : st.name = su.name := (structName_eq_iff hst hsu).mpr hread
    have heq : st = su := mem_insertStruct_iff.mp (h st su hst hsu) hname
    exact hsame ((struct_eq_iff hst hsu hname).mp heq)
  · intro h st su hst hsu
    apply mem_insertStruct_iff.mpr
    intro hname
    by_contra hne
    -- the structs have one name and differ, so their bases or fields read differently
    have hsame : ¬ SameReading P t u := fun hsame => hne ((struct_eq_iff hst hsu hname).mpr hsame)
    apply h (Option.isSome_of_eq_some hst) (Option.isSome_of_eq_some hsu) hsame
    exact (structName_eq_iff hst hsu).mp hname

lemma namesAgree_iff : NamesAgree P I t u ↔ ReadingsDiffer P I t u := by
  constructor
  · rintro ⟨hlayouts, hstructs⟩
    constructor
    · intro hne hstruct hread
      exact hne (hlayouts (translateType_eq_iff.mpr hread) (exists_struct_iff.mpr hstruct))
    · exact structs_kept_iff.mp hstructs
  · intro h
    constructor
    · intro hname hstruct
      by_contra hne
      exact h.layouts hne (exists_struct_iff.mp hstruct) (translateType_eq_iff.mp hname)
    · exact structs_kept_iff.mpr h.structs

def SequenceKind.text : SequenceKind → Str
  | vector => "vector".toList
  | set => "set".toList
  | deque => "deque".toList
  | list => "list".toList

/-- A name with what is in front of it. -/
def printScoped (scope : List Str) (text : Str) : Str :=
  scope.foldr (fun s rest => s ++ "::".toList ++ rest) text

/-- A template with its arguments, as clang prints it: two closing brackets are kept apart. -/
def printTemplate (name args : Str) : Str :=
  name ++ "<".toList ++ args ++ if args.getLast? = some '>' then " >".toList else ">".toList

mutual

/-- A type as it is printed when the library's templates are written without their namespace. -/
def printType : CppType → Str
  | .named name => printScoped name.scope name.text
  | .sequence kind elem => printTemplate kind.text (printType elem)
  | .optional elem => printTemplate "optional".toList (printType elem)
  | .map key value => printTemplate "map".toList (printType key ++ ", ".toList ++ printType value)
  | .pair first second =>
    printTemplate "pair".toList (printType first ++ ", ".toList ++ printType second)
  | .tuple args => printTemplate "tuple".toList (printTypes args)
  | .template name args => printTemplate (printScoped name.scope name.text) (printTypes args)

def printTypes : List CppType → Str
  | [] => []
  | t :: ts => printType t ++ if ts.isEmpty then [] else ", ".toList ++ printTypes ts

end

/-- The characters of a spelling. -/
def IsSpelled (s : Str) : Prop := ∀ c ∈ s, isIdChar c = true ∨ isReplaced c = true

instance (s : Str) : Decidable (IsSpelled s) := List.decidableBAll _ _

lemma IsSpelled.append {s s' : Str} (h : IsSpelled s) (h' : IsSpelled s') : IsSpelled (s ++ s') :=
  List.forall_mem_append.mpr ⟨h, h'⟩

lemma isSpelled_printScoped {scope : List Str} {text : Str}
    (hscope : ∀ s ∈ scope, ∀ c ∈ s, isIdChar c = true) (htext : IsSpelled text) :
    IsSpelled (printScoped scope text) := by
  have hcolons : IsSpelled "::".toList := by decide
  induction scope with
  | nil => exact htext
  | cons s scope ih =>
    have hs : IsSpelled s := fun c hc => .inl (hscope s List.mem_cons_self c hc)
    exact (hs.append hcolons).append (ih fun s' hs' => hscope s' (List.mem_cons_of_mem s hs'))

lemma isSpelled_printTemplate {name args : Str} (h : IsSpelled name) (h' : IsSpelled args) :
    IsSpelled (printTemplate name args) := by
  have hopen : IsSpelled "<".toList := by decide
  have hclose : IsSpelled " >".toList ∧ IsSpelled ">".toList := by decide
  unfold printTemplate
  apply ((h.append hopen).append h').append
  split
  · exact hclose.1
  · exact hclose.2

/-- A name is an identifier or in the table. -/
lemma TypeName.isIdentifier_or (name : TypeName) : (∀ c ∈ name.text, isIdChar c = true) ∨
    ∃ e ∈ translationTable, e.1.toList = name.text := by
  have hid := name.isIdentifier
  rcases translateName_cases name.text with heq | ⟨e, he, hkey, -⟩
  · rw [heq] at hid
    exact .inl hid
  · exact .inr ⟨e, he, hkey⟩

lemma TypeName.isSpelled (name : TypeName) : IsSpelled name.text := by
  have hkeys : ∀ e ∈ translationTable, IsSpelled e.1.toList := by decide
  rcases name.isIdentifier_or with hid | ⟨e, he, hkey⟩
  · exact fun c hc => .inl (hid c hc)
  · rw [← hkey]
    exact hkeys e he

lemma isSpelled_printTypes {ts : List CppType} (h : ∀ t ∈ ts, IsSpelled (printType t)) :
    IsSpelled (printTypes ts) := by
  induction ts with
  | nil => exact fun c hc => absurd hc List.not_mem_nil
  | cons t ts ih =>
    apply (h t List.mem_cons_self).append
    split
    · exact fun c hc => absurd hc List.not_mem_nil
    · apply IsSpelled.append (by decide)
      exact ih fun u hu => h u (List.mem_cons_of_mem t hu)

lemma isSpelled_printType (t : CppType) : IsSpelled (printType t) := by
  have hcomma : IsSpelled ", ".toList := by decide
  induction t using CppType.inductionOn with
  | named name => exact isSpelled_printScoped name.scopeIsIdentifier name.isSpelled
  | sequence kind elem ih =>
    apply isSpelled_printTemplate _ ih
    cases kind <;> decide
  | optional elem ih => exact isSpelled_printTemplate (by decide) ih
  | map key value ihk ihv =>
    apply isSpelled_printTemplate (by decide)
    exact (ihk.append hcomma).append ihv
  | pair first second ihf ihs =>
    apply isSpelled_printTemplate (by decide)
    exact (ihf.append hcomma).append ihs
  | tuple args ih => exact isSpelled_printTemplate (by decide) (isSpelled_printTypes ih)
  | template name args ih =>
    apply isSpelled_printTemplate _ (isSpelled_printTypes ih)
    exact isSpelled_printScoped name.scopeIsIdentifier fun c hc => .inl (name.isIdentifier c hc)

/-- Nothing is taken off a name without blanks and colons. -/
lemma baseTypeNameFrom_eq {s : Str} (hs : ∀ c ∈ s, c ≠ ':' ∧ c ≠ ' ') (fuel i : ℕ) (nested : ℤ)
    (hi : i < s.length ∨ i = 0) : baseTypeNameFrom s fuel i nested = s := by
  induction fuel generalizing i nested with
  | zero => rfl
  | succ fuel ih =>
    unfold baseTypeNameFrom
    by_cases hzero : i = 0
    · rw [if_pos hzero]
    · have hlt : i < s.length := hi.resolve_right hzero
      have hc : s.getD i ' ' ≠ ':' ∧ s.getD i ' ' ≠ ' ' := by
        rw [List.getD_eq_getElem _ _ hlt]
        exact hs _ (List.getElem_mem hlt)
      rw [if_neg hzero]
      -- neither end of the search is reached at this character
      simp only [hc.1, hc.2, false_and, if_false]
      exact ih (i - 1) _ (.inl (by omega))

lemma ne_of_isIdChar {c d : Char} (hc : isIdChar c = true) (hd : isIdChar d = false) : c ≠ d := by
  rintro rfl
  rw [hc] at hd
  cases hd

/-- What stands in front of the last colon is taken off. -/
lemma baseTypeNameFrom_colon {s text : Str} (hs : s ≠ []) (htext : ∀ c ∈ text, isIdChar c = true)
    {fuel k : ℕ} (hk : k ≤ text.length) (hfuel : k < fuel) :
    baseTypeNameFrom (s ++ ':' :: text) fuel (s.length + k) 0 = text := by
  induction k generalizing fuel with
  | zero =>
    obtain ⟨fuel, rfl⟩ := Nat.exists_eq_succ_of_ne_zero (Nat.ne_zero_of_lt hfuel)
    have hlen := List.length_pos_iff.mpr hs
    have hcolon : (s ++ ':' :: text).getD (s.length + 0) ' ' = ':' := by simp
    have hdrop : (s ++ ':' :: text).drop (s.length + 0 + 1) = text := by
      rw [List.drop_append]
      simp
    unfold baseTypeNameFrom
    rw [if_neg (by omega), hcolon]
    simp only [hdrop]
    simp
  | succ k ih =>
    obtain ⟨fuel, rfl⟩ := Nat.exists_eq_succ_of_ne_zero (Nat.ne_zero_of_lt hfuel)
    have hchar : (s ++ ':' :: text).getD (s.length + (k + 1)) ' ' = text.getD k ' ' := by
      rw [List.getD_append_right _ _ _ _ (by omega)]
      simp
    have hid : isIdChar (text.getD k ' ') = true := by
      rw [List.getD_eq_getElem _ _ hk]
      exact htext _ (List.getElem_mem hk)
    unfold baseTypeNameFrom
    rw [if_neg (by omega), hchar]
    -- the characters of an identifier neither open nor end a part
    simp only [ne_of_isIdChar hid (d := '>') (by decide), ne_of_isIdChar hid (d := '<') (by decide),
      ne_of_isIdChar hid (d := ':') (by decide), ne_of_isIdChar hid (d := ' ') (by decide), if_false,
      false_and]
    exact ih (by omega) (by omega)

/-- A name in a scope has a colon in front. -/
lemma printScoped_eq {scope : List Str} (hscope : scope ≠ []) (text : Str) :
    ∃ s ≠ [], printScoped scope text = s ++ ':' :: text := by
  induction scope with
  | nil => exact absurd rfl hscope
  | cons s scope ih =>
    by_cases hrest : scope = []
    · subst hrest
      refine ⟨s ++ ":".toList, by simp, ?_⟩
      simp [printScoped]
    · obtain ⟨s', -, heq⟩ := ih hrest
      refine ⟨s ++ "::".toList ++ s', by simp, ?_⟩
      show s ++ "::".toList ++ printScoped scope text = _
      rw [heq]
      simp

/-- The scopes are taken off the name of a type, and nothing else. -/
lemma getBaseTypeName_printType (name : TypeName) :
    getBaseTypeName (printType (.named name)) = name.text := by
  have hkeys : ∀ e ∈ translationTable, getBaseTypeName e.1.toList = e.1.toList := by decide
  show getBaseTypeName (printScoped name.scope name.text) = name.text
  by_cases hscope : name.scope = []
  · rw [hscope]
    show getBaseTypeName name.text = name.text
    rcases name.isIdentifier_or with hid | ⟨e, he, hkey⟩
    · apply baseTypeNameFrom_eq
      · intro c hc
        exact ⟨ne_of_isIdChar (hid c hc) (by decide), ne_of_isIdChar (hid c hc) (by decide)⟩
      · omega
    · rw [← hkey]
      exact hkeys e he
  · obtain ⟨s, hs, heq⟩ := printScoped_eq hscope name.text
    have hlen : (s ++ ':' :: name.text).length - 1 = s.length + name.text.length := by
      simp
    rw [heq]
    unfold getBaseTypeName
    rw [hlen]
    apply baseTypeNameFrom_colon hs (name.isIdentifier_of_scope hscope) le_rfl
    rw [List.length_append, List.length_cons]
    omega

/-! ## Types with one name -/

/-- A program that uses names of uosio and no records of its own. -/
def plainProgram : Program where
  spelling :=
    { getAsString := printType
      legal := isSpelled_printType
      named := getBaseTypeName_printType }
  isRecord _ := false
  base _ := none
  members _ := []

/-- Layouts that are the same only where they have to be. -/
inductive Shape where
  | named (scope : List Str) (text : Str)
  | sequence (elem : Shape)
  | optional (elem : Shape)
  | fields (shapes : List Shape)
  | template (scope : List Str) (text : Str) (shapes : List Shape)

def shapes : Layouts Shape where
  named name := .named name.scope name.text
  sequence := .sequence
  optional := .optional
  fields := .fields
  template name := .template name.scope name.text

/-- A name of uosio. -/
def uosioType (text : Str) (h : ∀ c ∈ text, isIdChar c = true)
    (h' : ∀ c ∈ translateName text, isIdChar c = true) : CppType :=
  .named ⟨["uosio".toList], text, by decide, h', fun _ => h⟩

def nameType : CppType := uosioType "name".toList (by decide) (by decide)

def assetType : CppType := uosioType "asset".toList (by decide) (by decide)

def symbolType : CppType := uosioType "symbol".toList (by decide) (by decide)

/-- The structs of `pair<name, asset>` and of an entry of `map<name, asset>` have one name, and the
second one is dropped. -/
example : ¬ NamesAgree plainProgram shapes (.pair nameType assetType) (.map nameType assetType) := by
  intro h
  have hmem := h.2 (addPair plainProgram nameType assetType) (addMap plainProgram nameType assetType)
    (by decide) (by decide)
  exact absurd hmem (by decide)

/-- The records `token::account`, with a balance, and `exchange::account`, with an owner. -/
def accountsProgram : Program where
  spelling := plainProgram.spelling
  isRecord name := name.text = "account".toList
  base _ := none
  members
    | .named name =>
      if name.scope = ["token".toList] then [("balance", assetType)] else [("owner", nameType)]
    | _ => []

def tokenAccount : CppType := .named ⟨["token".toList], "account".toList, by decide, by decide, by decide⟩

def exchangeAccount : CppType :=
  .named ⟨["exchange".toList], "account".toList, by decide, by decide, by decide⟩

/-- Namespaces are not part of a name. -/
example : ¬ NamesAgree accountsProgram shapes tokenAccount exchangeAccount := by
  intro h
  have hmem := h.2 (addStruct accountsProgram tokenAccount "account".toList)
    (addStruct accountsProgram exchangeAccount "account".toList) (by decide) (by decide)
  exact absurd hmem (by decide)

end UosioCdt.Tools.TypeNames
