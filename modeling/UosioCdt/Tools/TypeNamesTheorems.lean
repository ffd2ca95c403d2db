import UosioCdt.Tools.AbiGenTheorems
import UosioCdt.Tools.TypeReading

/-!
# Theorems: how the names of types read

The name of a type is a text in prefix notation: the words of `pair`, `tuple` or a template, then
those of the arguments, with the marks `[]` and `?` of sequences and optionals behind. Two types
have the same name exactly when they read the same.
-/

namespace UosioCdt.Tools.TypeNames

open PrefixTerms

/-! ## Characters -/

/-- The characters of translated types. -/
def IsNameChar (c : Char) : Prop := isIdChar c = true ∨ c = '[' ∨ c = ']' ∨ c = '?'

instance (c : Char) : Decidable (IsNameChar c) := inferInstanceAs (Decidable (_ ∨ _))

lemma isReplaced_of_isNameChar {c : Char} (h : IsNameChar c) : isReplaced c = false := by
  have hid : ∀ c ∈ ['<', '>', ',', ' ', ':'], ¬ IsNameChar c := by decide
  cases hc : isReplaced c with
  | false => rfl
  | true =>
    have hmem : c ∈ ['<', '>', ',', ' ', ':'] := by
      simpa [isReplaced, or_assoc] using hc
    exact absurd h (hid c hmem)

lemma replaceInName_eq {s : Str} (h : ∀ c ∈ s, IsNameChar c) : replaceInName s = s := by
  unfold replaceInName
  have hmap : s.map (fun c => if isReplaced c then '_' else c) = s.map id := by
    apply List.map_congr_left
    intro c hc
    rw [isReplaced_of_isNameChar (h c hc)]
    rfl
  rw [hmap, List.map_id]

/-- What is not replaced stays, and the rest becomes underscores. -/
lemma isIdChar_of_mem_replaceInName {s : Str} {c : Char}
    (h : ∀ c ∈ s, isIdChar c = true ∨ isReplaced c = true) (hc : c ∈ replaceInName s) :
    isIdChar c = true := by
  obtain ⟨d, hd, rfl⟩ := List.mem_map.mp hc
  split
  · rfl
  · exact (h d hd).resolve_right ‹_›

/-- The table has an entry for a name that it changes. -/
lemma translateName_cases (s : Str) : translateName s = s ∨
    ∃ e ∈ translationTable, e.1.toList = s ∧ translateName s = e.2.toList := by
  unfold translateName Tools.translateType
  cases hlookup : translationTable.lookup (String.ofList s) with
  | none => exact .inl String.toList_ofList
  | some w =>
    obtain ⟨l₁, l₂, hsplit, -⟩ := List.lookup_eq_some_iff.mp hlookup
    apply Or.inr
    refine ⟨(String.ofList s, w), ?_, String.toList_ofList, rfl⟩
    rw [hsplit]
    exact List.mem_append_right _ List.mem_cons_self

/-- The table translates to identifiers. -/
lemma translateName_eq_or (s : Str) :
    translateName s = s ∨ ∀ c ∈ translateName s, isIdChar c = true := by
  have hvalues : ∀ e ∈ translationTable, ∀ c ∈ e.2.toList, isIdChar c = true := by decide
  rcases translateName_cases s with heq | ⟨e, he, -, heq⟩
  · exact .inl heq
  · rw [heq]
    exact .inr (hvalues e he)

lemma baseTypeNameFrom_suffix (s : Str) (fuel i : ℕ) (nested : ℤ) :
    baseTypeNameFrom s fuel i nested <:+ s := by
  induction fuel generalizing i nested with
  | zero => exact List.suffix_rfl
  | succ fuel ih =>
    unfold baseTypeNameFrom
    simp only
    -- the rest behind a position, or the next round
    repeat' split
    all_goals first | exact ih _ _ | exact List.drop_suffix _ _ | exact List.suffix_rfl

lemma getBaseTypeName_suffix (s : Str) : getBaseTypeName s <:+ s := baseTypeNameFrom_suffix _ _ _ _

variable {S : Spelling} {t u : CppType}

lemma translateSpelled_named (name : TypeName) :
    translateSpelled S (.named name) = translateName name.text := by
  unfold translateSpelled
  rw [S.named]

/-- The spelling of a type, and its name in the table, have the characters of a spelling. -/
lemma legal_translateSpelled (t : CppType) {c : Char} (hc : c ∈ translateSpelled S t) :
    isIdChar c = true ∨ isReplaced c = true := by
  -- what is taken off in front leaves a part of the spelling
  rcases translateName_eq_or (getBaseTypeName (S.getAsString t)) with heq | hid
  · apply S.legal t
    apply (getBaseTypeName_suffix _).subset
    rw [← heq]
    exact hc
  · exact .inl (hid c hc)

/-- Replacing makes an identifier of a spelling. -/
lemma isIdChar_of_mem_replaced (t : CppType) {c : Char}
    (hc : c ∈ replaceInName (translateSpelled S t)) : isIdChar c = true :=
  isIdChar_of_mem_replaceInName (fun _ hd => legal_translateSpelled t hd) hc

lemma replaceInName_append (s s' : Str) :
    replaceInName (s ++ s') = replaceInName s ++ replaceInName s' := List.map_append

lemma replaceInName_intercalate (l : List Str) :
    replaceInName ("_".toList.intercalate l) = "_".toList.intercalate (l.map replaceInName) := by
  induction l with
  | nil => rfl
  | cons s l ih =>
    cases l with
    | nil => simp
    | cons s' l =>
      have hne : (s' :: l).map replaceInName ≠ [] := List.cons_ne_nil _ _
      rw [List.intercalate_cons_of_ne_nil (List.cons_ne_nil s' l), replaceInName_append,
        replaceInName_append, ih, List.map_cons (l := s' :: l),
        List.intercalate_cons_of_ne_nil hne]
      rfl

lemma forall_mem_intercalate {Q : Char → Prop} {l : List Str} (hQ : Q '_')
    (hl : ∀ s ∈ l, ∀ c ∈ s, Q c) : ∀ c ∈ "_".toList.intercalate l, Q c := by
  induction l with
  | nil => exact fun c hc => absurd hc List.not_mem_nil
  | cons s l ih =>
    have hs := hl s List.mem_cons_self
    cases l with
    | nil =>
      rw [List.intercalate_singleton]
      exact hs
    | cons s' l =>
      rw [List.intercalate_cons_of_ne_nil (List.cons_ne_nil s' l), List.forall_mem_append,
        List.forall_mem_append]
      refine ⟨⟨hs, ?_⟩, ih fun v hv => hl v (List.mem_cons_of_mem s hv)⟩
      intro c hc
      rw [List.mem_singleton.mp hc]
      exact hQ

/-- The spellings of arguments, joined and replaced, make an identifier. -/
lemma isIdChar_of_mem_spelledArgs (name : Str) {args : List CppType} {c : Char}
    (hname : ∀ c ∈ name, isIdChar c = true)
    (hc : c ∈ replaceInName (name ++ "_".toList.intercalate (args.map (translateSpelled S)))) :
    isIdChar c = true := by
  apply isIdChar_of_mem_replaceInName _ hc
  rw [List.forall_mem_append]
  apply And.intro fun d hd => .inl (hname d hd)
  apply forall_mem_intercalate (Q := fun d => isIdChar d = true ∨ isReplaced d = true) (.inl rfl)
  intro s hs d hd
  obtain ⟨t, -, rfl⟩ := List.mem_map.mp hs
  exact legal_translateSpelled t hd

lemma isNameChar_pairText {s s' : Str} (hs : ∀ c ∈ s, IsNameChar c) (hs' : ∀ c ∈ s', IsNameChar c) :
    ∀ c ∈ "pair_".toList ++ s ++ "_".toList ++ s', IsNameChar c := by
  simp only [List.forall_mem_append]
  exact ⟨⟨⟨by decide, hs⟩, by decide⟩, hs'⟩

lemma isNameChar_arrayText {s : Str} (hs : ∀ c ∈ s, IsNameChar c) :
    ∀ c ∈ s ++ "[]".toList, IsNameChar c := by
  rw [List.forall_mem_append]
  exact ⟨hs, by decide⟩

lemma isNameChar_templateText (name : TemplateName) {s : Str} (hs : ∀ c ∈ s, IsNameChar c) :
    ∀ c ∈ name.text ++ "_".toList ++ s, IsNameChar c := by
  simp only [List.forall_mem_append]
  exact ⟨⟨fun c hc => .inl (name.isIdentifier c hc), by decide⟩, hs⟩

lemma isNameChar_translateArgs {ts : List CppType}
    (h : ∀ t ∈ ts, ∀ c ∈ translateType S t, IsNameChar c) :
    ∀ c ∈ translateArgs S ts, IsNameChar c := by
  induction ts with
  | nil => exact fun c hc => absurd hc List.not_mem_nil
  | cons t ts ih =>
    rw [translateArgs, List.forall_mem_append]
    apply And.intro (h t List.mem_cons_self)
    split
    · exact fun c hc => absurd hc List.not_mem_nil
    · rw [List.forall_mem_append]
      exact ⟨by decide, ih fun u hu => h u (List.mem_cons_of_mem t hu)⟩

lemma isNameChar_translateType (t : CppType) : ∀ c ∈ translateType S t, IsNameChar c := by
  induction t using CppType.inductionOn with
  | named name =>
    rw [translateType, translateSpelled_named]
    exact fun c hc => .inl (name.isIdentifier c hc)
  | sequence kind elem ih =>
    rw [translateType]
    split
    · decide
    · exact isNameChar_arrayText ih
  | optional elem ih =>
    rw [translateType, List.forall_mem_append]
    exact ⟨ih, by decide⟩
  | map key value ihk ihv =>
    have hparts := isNameChar_arrayText (isNameChar_pairText ihk ihv)
    rw [translateType, replaceInName_eq hparts]
    exact hparts
  | pair first second ihf ihs =>
    have hparts := isNameChar_pairText ihf ihs
    rw [translateType, replaceInName_eq hparts]
    exact hparts
  | tuple args =>
    intro c hc
    apply Or.inl
    rw [translateType] at hc
    exact isIdChar_of_mem_spelledArgs _ (by decide) hc
  | template name args ih =>
    have hparts := isNameChar_templateText name (isNameChar_translateArgs ih)
    rw [translateType, replaceInName_eq hparts]
    -- the table may have another name for it
    rcases translateName_eq_or (name.text ++ "_".toList ++ translateArgs S args) with heq | hid
    · rw [heq]
      exact hparts
    · exact fun c hc => .inl (hid c hc)

/-! ## The parts of a name -/

lemma translateType_pair (first second : CppType) : translateType S (.pair first second) =
    "pair_".toList ++ translateType S first ++ "_".toList ++ translateType S second := by
  rw [translateType]
  apply replaceInName_eq
  exact isNameChar_pairText (isNameChar_translateType first) (isNameChar_translateType second)

/-- The name of a map is that of a sequence of pairs. -/
lemma translateType_map (key value : CppType) : translateType S (.map key value) =
    translateType S (.pair key value) ++ "[]".toList := by
  rw [translateType_pair, translateType]
  apply replaceInName_eq
  apply isNameChar_arrayText
  exact isNameChar_pairText (isNameChar_translateType key) (isNameChar_translateType value)

lemma translateType_tuple (args : List CppType) : translateType S (.tuple args) = "tuple_".toList ++
    "_".toList.intercalate (args.map fun t => replaceInName (translateSpelled S t)) := by
  rw [translateType, replaceInName_append, replaceInName_intercalate, List.map_map]
  rfl

lemma translateType_template (name : TemplateName) (args : List CppType) :
    translateType S (.template name args) =
      translateName (name.text ++ "_".toList ++ translateArgs S args) := by
  rw [translateType, replaceInName_eq]
  exact isNameChar_templateText name (isNameChar_translateArgs fun t _ => isNameChar_translateType t)

/-- The name of the struct of a template. -/
lemma getTemplateName_eq (name : TemplateName) (args : List CppType) : getTemplateName S name args =
    translateName (name.text ++ "_".toList ++
      "_".toList.intercalate (args.map fun t => replaceInName (translateSpelled S t))) := by
  unfold getTemplateName
  rw [replaceInName_append, replaceInName_append, replaceInName_intercalate, List.map_map,
    replaceInName_eq fun c hc => .inl (name.isIdentifier c hc)]
  rfl

/-! ## The name of a type is its term written out -/

lemma spell_read_node (h : Head) (args : List TypeTerm) (ms : List Mark) :
    spell (read (.node h args ms)) = spell (h.words.map .inl) ++
      (spell (Term.writeAll Head.words args) ++ spell (ms.map .inr)) := by
  unfold read Term.write
  rw [spell_append, spell_append]

lemma spell_read_leaf (text : Str) : spell (read (leaf text)) = '_' :: text := by
  unfold leaf
  rw [spell_read_node]
  exact (List.append_nil _).trans (spell_splitOn text)

lemma spell_read_addMark (t : TypeTerm) (m : Mark) :
    spell (read (t.addMark m)) = spell (read t) ++ m.chars := by
  unfold read
  rw [Term.write_addMark, spell_append, spell_mark, spell_nil, List.append_nil]

lemma nameOf_eq {t : TypeTerm} {s : Str} (h : spell (read t) = '_' :: s) : nameOf t = s := by
  unfold nameOf
  rw [h]
  rfl

lemma spell_tableEntry {t : TypeTerm} {s : Str} (h : spell (read t) = '_' :: s) :
    spell (read (tableEntry t)) = '_' :: translateName s := by
  unfold tableEntry
  rw [nameOf_eq h]
  split
  · rw [h, ‹translateName s = s›]
  · exact spell_read_leaf _

lemma spell_leaves {l : List Str} (hne : l ≠ []) :
    spell (Term.writeAll Head.words (l.map leaf)) = '_' :: "_".toList.intercalate l := by
  induction l with
  | nil => exact absurd rfl hne
  | cons s l ih =>
    have hcons : spell (Term.writeAll Head.words ((s :: l).map leaf)) =
        '_' :: s ++ spell (Term.writeAll Head.words (l.map leaf)) := by
      rw [← spell_read_leaf s]
      exact spell_append
    rw [hcons]
    cases l with
    | nil => simp [Term.writeAll]
    | cons s' l =>
      rw [ih (List.cons_ne_nil s' l), List.intercalate_cons_of_ne_nil (List.cons_ne_nil s' l)]
      simp

lemma spell_spelledLeaves {args : List CppType} (hne : args ≠ []) :
    spell (Term.writeAll Head.words (args.map (spelledLeaf S))) =
      '_' :: "_".toList.intercalate (args.map fun t => replaceInName (translateSpelled S t)) := by
  have hleaves := spell_leaves (l := args.map fun t => replaceInName (translateSpelled S t))
    (mt List.map_eq_nil_iff.mp hne)
  rw [List.map_map] at hleaves
  exact hleaves

/-- A template with its arguments, before the table is asked. -/
lemma spell_templateNode {text s : Str} {args : List CppType} {ts : List TypeTerm}
    (hnil : args = [] → ts = [] ∧ s = [])
    (hargs : args ≠ [] → spell (Term.writeAll Head.words ts) = '_' :: s) :
    spell (read (.node (.template text args.length) ts [])) = '_' :: (text ++ "_".toList ++ s) := by
  rw [spell_read_node]
  cases args with
  | nil =>
    obtain ⟨rfl, rfl⟩ := hnil rfl
    have hwords : spell ((Head.words (.template text 0)).map .inl) = '_' :: text ++ "_".toList := by
      show spell (List.map Sum.inl (text.splitOn '_' ++ [[]])) = _
      rw [List.map_append, spell_append, spell_splitOn]
      rfl
    show spell ((Head.words (.template text 0)).map .inl) ++ [] = _
    rw [hwords]
    simp
  | cons t args =>
    have hwords : spell ((Head.words (.template text (t :: args).length)).map .inl) = '_' :: text :=
      spell_splitOn text
    rw [hwords, hargs (List.cons_ne_nil t args)]
    simp

lemma spell_two (t u : TypeTerm) :
    spell (Term.writeAll Head.words [t, u]) = spell (read t) ++ spell (read u) := by
  rw [← spell_append]
  simp [Term.writeAll, read]

lemma terms_eq_map (ts : List CppType) : terms S ts = ts.map (term S) := by
  induction ts with
  | nil => rfl
  | cons t ts ih => rw [terms, ih, List.map_cons]

lemma spell_terms {ts : List CppType}
    (h : ∀ t ∈ ts, spell (read (term S t)) = '_' :: translateType S t) (hne : ts ≠ []) :
    spell (Term.writeAll Head.words (terms S ts)) = '_' :: translateArgs S ts := by
  induction ts with
  | nil => exact absurd rfl hne
  | cons t ts ih =>
    have hcons : spell (Term.writeAll Head.words (terms S (t :: ts))) =
        '_' :: translateType S t ++ spell (Term.writeAll Head.words (terms S ts)) := by
      rw [← h t List.mem_cons_self]
      exact spell_append
    rw [hcons, translateArgs]
    cases ts with
    | nil => rfl
    | cons u us =>
      rw [ih (fun v hv => h v (List.mem_cons_of_mem t hv)) (List.cons_ne_nil u us)]
      simp

theorem spell_term (t : CppType) : spell (read (term S t)) = '_' :: translateType S t := by
  induction t using CppType.inductionOn with
  | named name => rw [term, spell_read_leaf, translateType, translateSpelled_named]
  | sequence kind elem ih =>
    rw [term, translateType]
    unfold sequenceOf
    rw [nameOf_eq ih]
    split
    · exact spell_read_leaf _
    · rw [spell_read_addMark, ih]
      rfl
  | optional elem ih =>
    rw [term, translateType, spell_read_addMark, ih]
    rfl
  | map key value ihk ihv =>
    rw [term, spell_read_node, translateType_map, translateType_pair, spell_two, ihk, ihv]
    simp [Head.words, Mark.chars]
  | pair first second ihf ihs =>
    rw [term, spell_read_node, translateType_pair, spell_two, ihf, ihs]
    simp [Head.words]
  | tuple args =>
    rw [term, spell_read_node, translateType_tuple]
    cases args with
    | nil => rfl
    | cons t ts =>
      -- each argument is a leaf, whatever it is
      rw [spell_spelledLeaves (List.cons_ne_nil t ts)]
      simp [Head.words]
  | template name args ih =>
    rw [term, translateType_template]
    apply spell_tableEntry
    apply spell_templateNode _ (spell_terms ih)
    rintro rfl
    exact ⟨rfl, rfl⟩

lemma nameOf_term (t : CppType) : nameOf (term S t) = translateType S t := nameOf_eq (spell_term t)

/-! ## The words of a name -/

/-- The text of a leaf or of a template is an identifier. -/
def Head.Legal : Head → Prop
  | leaf text => ∀ c ∈ text, isIdChar c = true
  | pair => True
  | tuple _ => True
  | template text _ => ∀ c ∈ text, isIdChar c = true

lemma Head.Legal.isWord {h : Head} (hlegal : h.Legal) {w : Str} (hw : w ∈ h.words) : IsWord w := by
  have hempty : IsWord [] := fun c hc => absurd hc List.not_mem_nil
  cases h with
  | leaf text => exact isWord_of_mem_splitOn hlegal hw
  | pair =>
    rw [List.mem_singleton.mp hw]
    decide
  | tuple n =>
    have htuple : IsWord "tuple".toList := by decide
    cases n with
    | zero =>
      rcases List.mem_cons.mp hw with rfl | hw
      · exact htuple
      · rw [List.mem_singleton.mp hw]
        exact hempty
    | succ n =>
      rw [List.mem_singleton.mp hw]
      exact htuple
  | template text n =>
    cases n with
    | zero =>
      rcases List.mem_append.mp hw with hw | hw
      · exact isWord_of_mem_splitOn hlegal hw
      · rw [List.mem_singleton.mp hw]
        exact hempty
    | succ n => exact isWord_of_mem_splitOn hlegal hw

lemma legal_sequenceOf {t : TypeTerm} (ht : ∀ h ∈ t.heads, h.Legal) :
    ∀ h ∈ (sequenceOf t).heads, h.Legal := by
  unfold sequenceOf
  split
  · intro h hh
    rw [List.mem_singleton.mp hh]
    show ∀ c ∈ "bytes".toList, isIdChar c = true
    decide
  · rw [Term.heads_addMark]
    exact ht

lemma legal_tableEntry {t : TypeTerm} (ht : ∀ h ∈ t.heads, h.Legal) :
    ∀ h ∈ (tableEntry t).heads, h.Legal := by
  unfold tableEntry
  split
  · exact ht
  · intro h hh
    rw [List.mem_singleton.mp hh]
    exact (translateName_eq_or (nameOf t)).resolve_left ‹_›

lemma legal_spelledLeaves (args : List CppType) :
    ∀ h ∈ Term.headsAll (args.map (spelledLeaf S)), h.Legal := by
  intro h hh
  obtain ⟨t, ht, hh⟩ := Term.mem_headsAll.mp hh
  obtain ⟨v, -, rfl⟩ := List.mem_map.mp ht
  rw [List.mem_singleton.mp hh]
  exact fun c hc => isIdChar_of_mem_replaced v hc

lemma legal_templateNode (name : TemplateName) {n : ℕ} {ts : List TypeTerm} {ms : List Mark}
    (hts : ∀ h ∈ Term.headsAll ts, h.Legal) :
    ∀ h ∈ (Term.node (Head.template name.text n) ts ms).heads, h.Legal := by
  intro h hh
  rcases List.mem_cons.mp hh with rfl | hh
  · exact name.isIdentifier
  · exact hts h hh

lemma legal_pairNode {t u : TypeTerm} {ms : List Mark} (ht : ∀ h ∈ t.heads, h.Legal)
    (hu : ∀ h ∈ u.heads, h.Legal) : ∀ h ∈ (Term.node Head.pair [t, u] ms).heads, h.Legal := by
  intro h hh
  rcases List.mem_cons.mp hh with rfl | hh
  · trivial
  · rcases List.mem_append.mp hh with hh | hh
    · exact ht h hh
    · rcases List.mem_append.mp hh with hh | hh
      · exact hu h hh
      · exact absurd hh List.not_mem_nil

lemma legal_heads (t : CppType) : ∀ h ∈ (term S t).heads, h.Legal := by
  induction t using CppType.inductionOn with
  | named name =>
    intro h hh
    rw [List.mem_singleton.mp hh]
    exact name.isIdentifier
  | sequence kind elem ih => exact legal_sequenceOf ih
  | optional elem ih =>
    rw [term, Term.heads_addMark]
    exact ih
  | map key value ihk ihv => exact legal_pairNode ihk ihv
  | pair first second ihf ihs => exact legal_pairNode ihf ihs
  | tuple args =>
    intro h hh
    rcases List.mem_cons.mp hh with rfl | hh
    · trivial
    · exact legal_spelledLeaves args h hh
  | template name args ih =>
    apply legal_tableEntry
    apply legal_templateNode name
    intro h hh
    rw [terms_eq_map] at hh
    obtain ⟨v, hv, hh⟩ := Term.mem_headsAll.mp hh
    obtain ⟨t, ht, rfl⟩ := List.mem_map.mp hv
    exact ih t ht h hh

lemma isWord_of_mem_read {v : TypeTerm} (hv : ∀ h ∈ v.heads, h.Legal) {w : Str}
    (hw : .inl w ∈ read v) : IsWord w := by
  obtain ⟨h, hh, hwh⟩ := Term.mem_heads_of_mem_write _ hw
  exact (hv h hh).isWord hwh

/-- Two terms are written with one name exactly when they read the same. -/
lemma spell_read_eq_iff {v w : TypeTerm} (hv : ∀ h ∈ v.heads, h.Legal)
    (hw : ∀ h ∈ w.heads, h.Legal) : spell (read v) = spell (read w) ↔ read v = read w :=
  ⟨spell_injective (fun _ => isWord_of_mem_read hv) fun _ => isWord_of_mem_read hw, congrArg spell⟩

/-- Two types have one name exactly when they read the same. -/
theorem translateType_eq_iff :
    translateType S t = translateType S u ↔ read (term S t) = read (term S u) := by
  rw [← spell_read_eq_iff (legal_heads t) (legal_heads u), spell_term, spell_term, List.cons_inj_right]

/-! ## The names of structs -/

lemma legal_structTerm (t : CppType) : ∀ h ∈ (structTerm S t).heads, h.Legal := by
  cases t with
  | template name args =>
    apply legal_tableEntry
    exact legal_templateNode name (legal_spelledLeaves args)
  | _ => exact legal_heads _

/-- What the table translates is builtin. -/
lemma translateName_of_not_builtin {s : Str}
    (h : ¬ isBuiltinType (String.ofList (translateName s)) = true) : translateName s = s := by
  have hvalues : ∀ e ∈ translationTable, isBuiltinType e.2 = true := by decide
  rcases translateName_cases s with heq | ⟨e, he, -, heq⟩
  · exact heq
  · rw [heq, String.ofList_toList] at h
    exact absurd (hvalues e he) h

variable {P : Program} {st su : AbiStruct}

/-- Which structs are added, and for which types. -/
lemma addedStruct_cases (h : addedStruct P t = some st) :
    (∃ name, t = .named name ∧ translateName name.text = name.text ∧ st = addStruct P t name.text) ∨
    (∃ key value, t = .map key value ∧ st = addMap P key value) ∨
    (∃ first second, t = .pair first second ∧ st = addPair P first second) ∨
    (∃ args, t = .tuple args ∧ st = addTuple P args) ∨
    ∃ name args, t = .template name args ∧
      st = addStruct P t (getTemplateName P.spelling name args) := by
  unfold addedStruct at h
  split at h
  · cases h
  · rename_i hbuiltin
    cases t with
    | named name =>
      simp only at h
      split at h
      · cases h
        rw [translateType, translateSpelled_named] at hbuiltin
        exact .inl ⟨name, rfl, translateName_of_not_builtin hbuiltin, rfl⟩
      · cases h
    | sequence kind elem => cases h
    | optional elem => cases h
    | map key value =>
      cases h
      exact .inr (.inl ⟨key, value, rfl, rfl⟩)
    | pair first second =>
      cases h
      exact .inr (.inr (.inl ⟨first, second, rfl, rfl⟩))
    | tuple args =>
      cases h
      exact .inr (.inr (.inr (.inl ⟨args, rfl, rfl⟩)))
    | template name args =>
      simp only at h
      split at h
      · cases h
      · cases h
        exact .inr (.inr (.inr (.inr ⟨name, args, rfl, rfl⟩)))

/-- The name of an added struct, written out. -/
lemma spell_structTerm (h : addedStruct P t = some st) :
    spell (read (structTerm P.spelling t)) = '_' :: st.name.toList := by
  rcases addedStruct_cases h with ⟨name, rfl, hname, rfl⟩ | ⟨key, value, rfl, rfl⟩ |
    ⟨first, second, rfl, rfl⟩ | ⟨args, rfl, rfl⟩ | ⟨name, args, rfl, rfl⟩
  · show spell (read (leaf (translateName name.text))) = '_' :: (String.ofList name.text).toList
    rw [spell_read_leaf, hname, String.toList_ofList]
  · -- the two characters that `add_map` cuts off are the mark
    show spell (read (term P.spelling (.pair key value))) = '_' :: (String.ofList _).toList
    rw [spell_term, translateType_map, String.toList_ofList, List.take_append_of_le_length (by simp)]
    simp
  · show spell (read (term P.spelling (.pair first second))) = '_' :: (String.ofList _).toList
    rw [spell_term, String.toList_ofList]
  · show spell (read (term P.spelling (.tuple args))) = '_' :: (String.ofList _).toList
    rw [spell_term, String.toList_ofList]
  · show spell (read (tableEntry _)) = '_' :: (String.ofList _).toList
    rw [String.toList_ofList, getTemplateName_eq]
    apply spell_tableEntry
    apply spell_templateNode _ fun hne => spell_spelledLeaves hne
    rintro rfl
    exact ⟨rfl, rfl⟩

/-- Two added structs have one name exactly when the terms of their names read the same. -/
lemma structName_eq_iff (ht : addedStruct P t = some st) (hu : addedStruct P u = some su) :
    st.name = su.name ↔ read (structTerm P.spelling t) = read (structTerm P.spelling u) := by
  rw [← spell_read_eq_iff (legal_structTerm t) (legal_structTerm u), spell_structTerm ht,
    spell_structTerm hu, List.cons_inj_right, String.toList_inj]

/-! ## The fields of structs -/

lemma base_addStruct (v : CppType) (name : Str) : (addStruct P v name).base =
    String.ofList (nameOf (((P.base v).map (term P.spelling)).getD (leaf []))) := by
  unfold addStruct
  cases P.base v with
  | none => rfl
  | some base =>
    show String.ofList _ = String.ofList _
    rw [Option.map_some, Option.getD_some, nameOf_term]

lemma fields_addStruct (v : CppType) (name : Str) : (addStruct P v name).fields =
    ((P.members v).map fun (field, w) => (field, if field = "transaction_extensions" then
      (leaf "extension".toList).addMark Mark.array else term P.spelling w)).map
        fun (field, w) => (⟨field, String.ofList (nameOf w)⟩ : AbiField) := by
  unfold addStruct
  rw [List.map_map]
  apply List.map_congr_left
  rintro ⟨field, w⟩ -
  simp only [Function.comp_apply]
  split
  · rename_i hext
    rw [hext]
    decide
  · unfold abiField
    rw [nameOf_term]

lemma base_eq (h : addedStruct P t = some st) :
    st.base = String.ofList (nameOf ((baseTerm P t).getD (leaf []))) := by
  rcases addedStruct_cases h with ⟨name, rfl, -, rfl⟩ | ⟨key, value, rfl, rfl⟩ |
    ⟨first, second, rfl, rfl⟩ | ⟨args, rfl, rfl⟩ | ⟨name, args, rfl, rfl⟩
  · exact base_addStruct _ _
  · rfl
  · rfl
  · rfl
  · exact base_addStruct _ _

lemma fields_eq (h : addedStruct P t = some st) :
    st.fields = (fieldTerms P t).map fun (field, v) => ⟨field, String.ofList (nameOf v)⟩ := by
  rcases addedStruct_cases h with ⟨name, rfl, -, rfl⟩ | ⟨key, value, rfl, rfl⟩ |
    ⟨first, second, rfl, rfl⟩ | ⟨args, rfl, rfl⟩ | ⟨name, args, rfl, rfl⟩
  · exact fields_addStruct _ _
  · simp [addMap, fieldTerms, abiField, nameOf_term]
  · simp [addPair, fieldTerms, abiField, nameOf_term]
  · unfold addTuple fieldTerms
    rw [List.map_map]
    apply List.map_congr_left
    rintro ⟨v, i⟩ -
    simp [abiField, nameOf_term]
  · exact fields_addStruct _ _

/-- A term of identifiers that is written with its name. -/
def Written (v : TypeTerm) : Prop :=
  (∀ h ∈ v.heads, h.Legal) ∧ spell (read v) = '_' :: nameOf v

lemma Written.nameOf_eq_iff {v w : TypeTerm} (hv : Written v) (hw : Written w) :
    nameOf v = nameOf w ↔ read v = read w := by
  rw [← spell_read_eq_iff hv.1 hw.1, hv.2, hw.2, List.cons_inj_right]

lemma written_term (t : CppType) : Written (term S t) := by
  refine ⟨legal_heads t, ?_⟩
  rw [nameOf_term, spell_term]

lemma written_base : Written ((baseTerm P t).getD (leaf [])) := by
  have hempty : Written (leaf []) :=
    ⟨fun h hh => by cases List.mem_singleton.mp hh; exact fun c hc => absurd hc List.not_mem_nil,
      spell_read_leaf []⟩
  have hmap (b : Option CppType) : Written ((b.map (term P.spelling)).getD (leaf [])) := by
    cases b with
    | none => exact hempty
    | some base => exact written_term base
  cases t with
  | map key value => exact hempty
  | pair first second => exact hempty
  | tuple args => exact hempty
  | _ => exact hmap _

lemma written_member (field : String) (t : CppType) : Written
    (if field = "transaction_extensions" then (leaf "extension".toList).addMark Mark.array
      else term S t) := by
  split
  · refine ⟨fun h hh => ?_, by decide⟩
    rw [Term.heads_addMark] at hh
    cases List.mem_singleton.mp hh
    exact (by decide : ∀ c ∈ "extension".toList, isIdChar c = true)
  · exact written_term t

lemma written_fields : ∀ f ∈ fieldTerms P t, Written f.2 := by
  have hmembers (members : List (String × CppType)) :
      ∀ f ∈ members.map (fun (field, t) =>
        (field, if field = "transaction_extensions" then
          (leaf "extension".toList).addMark Mark.array else term P.spelling t)), Written f.2 := by
    intro f hf
    obtain ⟨⟨field, t⟩, -, rfl⟩ := List.mem_map.mp hf
    exact written_member field t
  cases t with
  | map key value =>
    intro f hf
    rcases List.mem_pair.mp hf with rfl | rfl
    · exact written_term key
    · exact written_term value
  | pair first second =>
    intro f hf
    rcases List.mem_pair.mp hf with rfl | rfl
    · exact written_term first
    · exact written_term second
  | tuple args =>
    intro f hf
    obtain ⟨⟨t, i⟩, -, rfl⟩ := List.mem_map.mp hf
    exact written_term t
  | _ => exact hmembers _

/-- Lists that agree in what `f` reads of them agree in what `g` reads of them. -/
lemma map_eq_map_of {α β γ : Type} {f : α → β} {g : α → γ} {l l' : List α}
    (h : ∀ a ∈ l, ∀ b ∈ l', f a = f b → g a = g b) (heq : l.map f = l'.map f) :
    l.map g = l'.map g := by
  induction l generalizing l' with
  | nil =>
    rw [List.map_nil, eq_comm, List.map_eq_nil_iff] at heq
    rw [heq]
  | cons a l ih =>
    cases l' with
    | nil => cases heq
    | cons b l' =>
      obtain ⟨hhead, htail⟩ := List.cons.inj heq
      have hrest := ih (fun x hx y hy => h x (List.mem_cons_of_mem a hx) y (List.mem_cons_of_mem b hy))
        htail
      rw [List.map_cons, List.map_cons, hrest, h a List.mem_cons_self b List.mem_cons_self hhead]

/-- Structs of one name are the same exactly when their bases and fields read the same. -/
lemma struct_eq_iff (ht : addedStruct P t = some st) (hu : addedStruct P u = some su)
    (hname : st.name = su.name) : st = su ↔ SameReading P t u := by
  have hbase : st.base = su.base ↔
      read ((baseTerm P t).getD (leaf [])) = read ((baseTerm P u).getD (leaf [])) := by
    rw [base_eq ht, base_eq hu, String.ofList_inj]
    exact written_base.nameOf_eq_iff written_base
  have hfields : st.fields = su.fields ↔ (fieldTerms P t).map (fun (field, v) => (field, read v)) =
      (fieldTerms P u).map fun (field, v) => (field, read v) := by
    rw [fields_eq ht, fields_eq hu]
    -- the type of a field is its reading, written out
    have hiff : ∀ f ∈ fieldTerms P t, ∀ g ∈ fieldTerms P u, nameOf f.2 = nameOf g.2 ↔
        read f.2 = read g.2 :=
      fun f hf g hg => (written_fields f hf).nameOf_eq_iff (written_fields g hg)
    constructor
    · apply map_eq_map_of
      intro f hf g hg heq
      obtain ⟨hfield, htype⟩ := AbiField.mk.inj heq
      exact Prod.ext hfield ((hiff f hf g hg).mp (String.ofList_inj.mp htype))
    · apply map_eq_map_of
      intro f hf g hg heq
      obtain ⟨hfield, hread⟩ := Prod.mk.inj heq
      have htype := (hiff f hf g hg).mpr hread
      simp only [hfield, htype]
  unfold SameReading
  rw [← hbase, ← hfields]
  cases st
  cases su
  rw [AbiStruct.mk.injEq]
  exact and_iff_right hname

end UosioCdt.Tools.TypeNames
