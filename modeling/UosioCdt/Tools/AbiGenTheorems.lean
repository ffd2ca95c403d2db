import UosioCdt.Tools.AbiGen

/-!
# When the emitted ABI is closed

The scans of `validate_struct` and `validate_types` do not follow every kind of reference. What they
follow is kept; a name that is only reached in another way may be left out.
-/

namespace UosioCdt.Tools

namespace AbiGen

variable {g : AbiGen} {r x : String}

/-! ## Names -/

/-- What `_translate_type` changes becomes a builtin. -/
lemma translateType_of_not_builtin (h : ¬ isBuiltinType r = true) : translateType r = r := by
  have hvalues : ∀ e ∈ translationTable, e.2 ∈ builtins := by decide
  unfold isBuiltinType at h
  rw [List.contains_iff_mem] at h
  unfold translateType at h ⊢
  cases hlookup : translationTable.lookup r with
  | none => rfl
  | some w =>
    rw [hlookup] at h
    have hmem : (r, w) ∈ translationTable := by
      obtain ⟨l₁, l₂, hsplit, -⟩ := List.lookup_eq_some_iff.mp hlookup
      rw [hsplit]
      exact List.mem_append_right _ List.mem_cons_self
    exact absurd (hvalues _ hmem) h

/-! ## The set of tables -/

lemma mem_insertTable {set : List AbiTable} {t u : AbiTable} (h : u ∈ insertTable set t) :
    u = t ∨ u ∈ set := by
  induction set with
  | nil => exact .inl (List.mem_singleton.mp h)
  | cons v set ih =>
    unfold insertTable at h
    split at h
    · exact List.mem_cons.mp h
    · split at h
      · rcases List.mem_cons.mp h with rfl | h
        · exact .inr List.mem_cons_self
        · exact (ih h).imp_right (List.mem_cons_of_mem _)
      · exact .inr h

lemma mem_foldl_insertTable {ts set : List AbiTable} {u : AbiTable}
    (h : u ∈ ts.foldl insertTable set) : u ∈ ts ∨ u ∈ set := by
  induction ts generalizing set with
  | nil => exact .inr h
  | cons t ts ih =>
    rcases ih h with h | h
    · exact .inl (List.mem_cons_of_mem _ h)
    · rcases mem_insertTable h with rfl | h
      · exact .inl List.mem_cons_self
      · exact .inr h

lemma mem_multiIndexLoop {t u : AbiTable} {ts set : List AbiTable}
    (h : u ∈ (multiIndexLoop t ts set).2) : u ∈ ts ∨ u ∈ set := by
  induction ts generalizing set with
  | nil => exact .inr h
  | cons v ts ih =>
    unfold multiIndexLoop at h
    split at h
    · exact .inr h
    · rcases ih h with h | h
      · exact .inl (List.mem_cons_of_mem _ h)
      · rcases mem_insertTable h with rfl | h
        · exact .inl List.mem_cons_self
        · exact .inr h

/-- The emitted tables are collected ones. -/
lemma mem_setOfTables {u : AbiTable} (h : u ∈ g.setOfTables) : u ∈ g.tables ∨ u ∈ g.ctables := by
  have hdeclared : ∀ cs set : List AbiTable, (∀ v ∈ set, v ∈ g.tables ∨ v ∈ g.ctables) →
      (∀ c ∈ cs, c ∈ g.ctables) → ∀ v ∈ cs.foldl (fun set t =>
        if ¬ (multiIndexLoop t g.tables set).1 then insertTable (multiIndexLoop t g.tables set).2 t
        else (multiIndexLoop t g.tables set).2) set, v ∈ g.tables ∨ v ∈ g.ctables := by
    intro cs
    induction cs with
    | nil => exact fun set hset _ => hset
    | cons c cs ih =>
      intro set hset hcs
      refine ih _ (fun v hv => ?_) fun d hd => hcs d (List.mem_cons_of_mem _ hd)
      have hloop : ∀ w ∈ (multiIndexLoop c g.tables set).2, w ∈ g.tables ∨ w ∈ g.ctables := by
        intro w hw
        rcases mem_multiIndexLoop hw with hw | hw
        · exact .inl hw
        · exact hset w hw
      simp only at hv
      split at hv
      · rcases mem_insertTable hv with rfl | hv
        · exact .inr (hcs v List.mem_cons_self)
        · exact hloop v hv
      · exact hloop v hv
  rcases mem_foldl_insertTable h with h | h
  · exact .inl h
  · exact hdeclared g.ctables [] (fun v hv => absurd hv List.not_mem_nil) (fun _ hc => hc) u h

/-! ## What the scans follow -/

/-- A struct of this name is emitted. -/
def KeepsStruct (g : AbiGen) (r : String) : Prop :=
  ∃ s ∈ g.structs, s.name = r ∧ g.validateStruct s = true

/-- A typedef of this name is emitted. -/
def KeepsType (g : AbiGen) (r : String) : Prop :=
  ∃ td ∈ g.typedefs, td.newTypeName = r ∧ g.validateTypes td = true

/-- The emitted document knows the name. -/
def Keeps (g : AbiGen) (r : String) : Prop :=
  isBuiltinType r = true ∨ g.KeepsType r ∨ g.KeepsStruct r ∨ r ∈ g.variants.map AbiVariant.name

lemma knows_toJson : g.toJson.Knows r ↔ g.Keeps r := by
  unfold Abi.Knows Keeps KeepsType KeepsStruct toJson
  simp only [List.mem_map, List.mem_filter]
  refine or_congr_right (or_congr ?_ (or_congr_left ?_))
  · exact exists_congr fun td => by rw [and_assoc, and_comm (a := g.validateTypes td = true)]
  · exact exists_congr fun s => by rw [and_assoc, and_comm (a := g.validateStruct s = true)]

/-- The kinds of references that `validate_struct` follows to a struct of the name. -/
lemma validateStruct_of {as : AbiStruct} (hname : as.name = r) (hr : ¬ isBuiltinType r = true)
    (h : (∃ s ∈ g.structs, (∃ f ∈ s.fields, removeSuffix f.type = r) ∨
        (∃ v ∈ g.variants, ∃ vt ∈ v.types, removeSuffix vt = r) ∨ s.base = r) ∨
      (∃ a ∈ g.actions, a.type = r) ∨ (∃ t ∈ g.setOfTables, t.type = r) ∨
      ∃ td ∈ g.typedefs, removeSuffix td.type = r) : g.validateStruct as = true := by
  have htr := translateType_of_not_builtin hr
  unfold validateStruct
  rw [hname, htr, if_neg hr]
  simp only [Bool.or_eq_true, List.any_eq_true, beq_iff_eq]
  rcases h with ⟨s, hs, ⟨f, hf, rfl⟩ | ⟨v, hv, vt, hvt, rfl⟩ | rfl⟩ | ⟨a, ha, rfl⟩ | ⟨t, ht, rfl⟩ |
    ⟨td, htd, rfl⟩
  · exact .inl (.inl (.inl ⟨s, hs, .inl (.inl ⟨f, hf, htr.symm⟩)⟩))
  · exact .inl (.inl (.inl ⟨s, hs, .inl (.inr ⟨v, hv, vt, hvt, htr.symm⟩)⟩))
  · exact .inl (.inl (.inl ⟨s, hs, .inr rfl⟩))
  · exact .inl (.inl (.inr ⟨a, ha, htr.symm⟩))
  · exact .inl (.inr ⟨t, ht, htr.symm⟩)
  · exact .inr ⟨td, htd, htr.symm⟩

/-- The kinds of references that `validate_types` follows to a typedef of the name. -/
lemma validateTypes_of {td : AbiTypedef} (hname : td.newTypeName = r)
    (h : (∃ s ∈ g.structs, g.validateStruct s = true ∧ ∃ f ∈ s.fields, removeSuffix f.type = r) ∨
      (∃ t ∈ g.tables, t.type = r) ∨ (∃ a ∈ g.actions, a.type = r) ∨
      ∃ td' ∈ g.typedefs, removeSuffix td'.type = r) : g.validateTypes td = true := by
  unfold validateTypes
  rw [hname]
  simp only [Bool.or_eq_true, Bool.and_eq_true, List.any_eq_true, beq_iff_eq]
  rwa [or_assoc, or_assoc]

/-- A collected name is kept when the scans that apply to it follow the reference. -/
lemma keeps_of (hknown : g.collected.Knows r)
    (hstruct : ¬ isBuiltinType r = true → ∀ as ∈ g.structs, as.name = r → g.validateStruct as = true)
    (htype : ∀ td ∈ g.typedefs, td.newTypeName = r → g.validateTypes td = true) : g.Keeps r := by
  rcases hknown with hb | ht | hs | hv
  · exact .inl hb
  · obtain ⟨td, htd, hname⟩ := List.mem_map.mp ht
    exact .inr (.inl ⟨td, htd, hname, htype td htd hname⟩)
  · by_cases hb : isBuiltinType r = true
    · exact .inl hb
    · obtain ⟨s, hs, hname⟩ := List.mem_map.mp hs
      exact .inr (.inr (.inl ⟨s, hs, hname, hstruct hb s hs hname⟩))
  · exact .inr (.inr (.inr hv))

/-! ## Closedness -/

/-- The references that no scan follows reach a name that is kept for another reason. -/
structure Followed (g : AbiGen) : Prop where
  /-- An alternative of a variant, unless it is a struct. -/
  alternatives : ∀ v ∈ g.variants, ∀ x ∈ v.types,
    removeSuffix x ∉ g.structs.map AbiStruct.name → g.Keeps (removeSuffix x)
  /-- The base of an emitted struct, unless it is a struct and has no suffix. -/
  bases : ∀ s ∈ g.structs, g.validateStruct s = true → s.base ≠ "" →
    ¬ (removeSuffix s.base = s.base ∧ s.base ∈ g.structs.map AbiStruct.name) →
    g.Keeps (removeSuffix s.base)
  /-- The type of an action that has a suffix. -/
  actions : ∀ a ∈ g.actions, removeSuffix a.type ≠ a.type → g.Keeps (removeSuffix a.type)
  /-- The type of an emitted table, unless it has no suffix and is a struct, or the type of a table
  that a multi-index declares. -/
  tables : ∀ t ∈ g.setOfTables,
    ¬ (removeSuffix t.type = t.type ∧
      (t.type ∈ g.structs.map AbiStruct.name ∨ ∃ u ∈ g.tables, u.type = t.type)) →
    g.Keeps (removeSuffix t.type)

lemma closed_toJson_iff : g.toJson.Closed ↔
    (∀ s ∈ g.structs, g.validateStruct s = true → ∀ f ∈ s.fields, g.Keeps (removeSuffix f.type)) ∧
    (∀ s ∈ g.structs, g.validateStruct s = true → s.base ≠ "" → g.Keeps (removeSuffix s.base)) ∧
    (∀ td ∈ g.typedefs, g.validateTypes td = true → g.Keeps (removeSuffix td.type)) ∧
    (∀ v ∈ g.variants, ∀ x ∈ v.types, g.Keeps (removeSuffix x)) ∧
    (∀ a ∈ g.actions, g.Keeps (removeSuffix a.type)) ∧
    ∀ t ∈ g.setOfTables, g.Keeps (removeSuffix t.type) := by
  unfold Abi.Closed
  simp only [knows_toJson]
  unfold Abi.uses toJson tableToJson
  simp only [List.forall_mem_append, List.forall_mem_flatMap, List.forall_mem_map,
    List.mem_filter, decide_eq_true_eq, and_assoc, and_imp]

/-- What is used by the collected definitions is known. -/
lemma Closed.knows (h : g.collected.Closed) :
    (∀ s ∈ g.structs, ∀ f ∈ s.fields, g.collected.Knows (removeSuffix f.type)) ∧
    (∀ s ∈ g.structs, s.base ≠ "" → g.collected.Knows (removeSuffix s.base)) ∧
    (∀ td ∈ g.typedefs, g.collected.Knows (removeSuffix td.type)) ∧
    (∀ v ∈ g.variants, ∀ x ∈ v.types, g.collected.Knows (removeSuffix x)) ∧
    (∀ a ∈ g.actions, g.collected.Knows (removeSuffix a.type)) ∧
    ∀ t, t ∈ g.tables ∨ t ∈ g.ctables → g.collected.Knows (removeSuffix t.type) := by
  unfold Abi.Closed at h
  unfold Abi.uses collected at h
  simp only [List.forall_mem_append, List.forall_mem_flatMap, List.forall_mem_map,
    List.mem_filter, decide_eq_true_eq, and_assoc, and_imp, List.map_append] at h
  obtain ⟨hfields, hbases, htypes, hvariants, hactions, htables, hctables⟩ := h
  refine ⟨hfields, hbases, htypes, hvariants, hactions, ?_⟩
  rintro t (ht | ht)
  · exact htables t ht
  · exact hctables t ht

/-- A closed collection is emitted as a closed ABI exactly when the references that the scans do not
follow are kept for another reason. -/
theorem toJson_closed_iff (h : g.collected.Closed) : g.toJson.Closed ↔ Followed g := by
  obtain ⟨hfields, hbases, htypes, hvariants, hactions, htables⟩ := Closed.knows h
  rw [closed_toJson_iff]
  constructor
  · rintro ⟨-, hb, -, hv, ha, ht⟩
    exact ⟨fun v hmem x hx _ => hv v hmem x hx, fun s hs hval hne _ => hb s hs hval hne,
      fun a hmem _ => ha a hmem, fun t hmem _ => ht t hmem⟩
  · intro hf
    refine ⟨?_, ?_, ?_, ?_, ?_, ?_⟩
    · -- a field of an emitted struct
      intro s hs hval f hfmem
      refine keeps_of (hfields s hs f hfmem) (fun hr as _ hname => ?_) fun td _ hname => ?_
      · exact validateStruct_of hname hr (.inl ⟨s, hs, .inl ⟨f, hfmem, rfl⟩⟩)
      · exact validateTypes_of hname (.inl ⟨s, hs, hval, f, hfmem, rfl⟩)
    · -- the base of an emitted struct
      intro s hs hval hne
      by_cases hfollowed : removeSuffix s.base = s.base ∧ s.base ∈ g.structs.map AbiStruct.name
      · obtain ⟨hsuffix, hstruct⟩ := hfollowed
        rw [hsuffix]
        by_cases hr : isBuiltinType s.base = true
        · exact .inl hr
        · obtain ⟨as, has, hname⟩ := List.mem_map.mp hstruct
          exact .inr (.inr (.inl ⟨as, has, hname,
            validateStruct_of hname hr (.inl ⟨s, hs, .inr (.inr rfl)⟩)⟩))
      · exact hf.bases s hs hval hne hfollowed
    · -- the type of an emitted typedef
      intro td htd _
      refine keeps_of (htypes td htd) (fun hr as _ hname => ?_) fun td' _ hname => ?_
      · exact validateStruct_of hname hr (.inr (.inr (.inr ⟨td, htd, rfl⟩)))
      · exact validateTypes_of hname (.inr (.inr (.inr ⟨td, htd, rfl⟩)))
    · -- an alternative of a variant
      intro v hv x hx
      by_cases hstruct : removeSuffix x ∈ g.structs.map AbiStruct.name
      · by_cases hr : isBuiltinType (removeSuffix x) = true
        · exact .inl hr
        · obtain ⟨as, has, hname⟩ := List.mem_map.mp hstruct
          exact .inr (.inr (.inl ⟨as, has, hname,
            validateStruct_of hname hr (.inl ⟨as, has, .inr (.inl ⟨v, hv, x, hx, rfl⟩)⟩)⟩))
      · exact hf.alternatives v hv x hx hstruct
    · -- the type of an action
      intro a ha
      by_cases hsuffix : removeSuffix a.type = a.type
      · refine keeps_of (hactions a ha) (fun hr as _ hname => ?_) fun td _ hname => ?_
        · exact validateStruct_of hname hr (.inr (.inl ⟨a, ha, hsuffix.symm⟩))
        · exact validateTypes_of hname (.inr (.inr (.inl ⟨a, ha, hsuffix.symm⟩)))
      · exact hf.actions a ha hsuffix
    · -- the type of a table
      intro t ht
      by_cases hfollowed : removeSuffix t.type = t.type ∧
          (t.type ∈ g.structs.map AbiStruct.name ∨ ∃ u ∈ g.tables, u.type = t.type)
      · obtain ⟨hsuffix, hkind⟩ := hfollowed
        have hstruct : ¬ isBuiltinType (removeSuffix t.type) = true → ∀ as ∈ g.structs,
            as.name = removeSuffix t.type → g.validateStruct as = true := fun hr as _ hname =>
          validateStruct_of hname hr (.inr (.inr (.inl ⟨t, ht, hsuffix.symm⟩)))
        rcases hkind with hmem | ⟨u, hu, htype⟩
        · by_cases hr : isBuiltinType (removeSuffix t.type) = true
          · exact .inl hr
          · obtain ⟨as, has, hname⟩ := List.mem_map.mp hmem
            have hname' := hname.trans hsuffix.symm
            exact .inr (.inr (.inl ⟨as, has, hname', hstruct hr as has hname'⟩))
        · refine keeps_of (htables t (mem_setOfTables ht)) hstruct fun td _ hname => ?_
          exact validateTypes_of hname (.inr (.inl ⟨u, hu, htype.trans hsuffix.symm⟩))
      · exact hf.tables t ht hfollowed

/-- An action with a parameter whose type is a variant, and a typedef of one alternative. -/
def aliasVariant (field : String) : AbiGen where
  version := .initial
  structs := [⟨"ping", "", [⟨"value", field⟩]⟩]
  typedefs := [⟨"label", "string"⟩]
  actions := [⟨"ping", "ping", ""⟩]
  tables := []
  variants := [⟨"variant_label_uint64", ["label", "uint64"]⟩]
  ricardianClauses := []
  ctables := []

theorem toJson_closed_iff_label :
    (aliasVariant "label").toJson.Closed ↔ Followed (aliasVariant "label") :=
  toJson_closed_iff (by decide +kernel)

/-- The typedef is left out, and the variant still uses it. -/
theorem exists_not_closed : ∃ g : AbiGen, g.collected.Closed ∧ ¬ g.toJson.Closed :=
  ⟨aliasVariant "variant_label_uint64", by decide +kernel, by decide +kernel⟩

end AbiGen

end UosioCdt.Tools
