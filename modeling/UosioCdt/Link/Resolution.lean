import UosioCdt.Link.SymbolTableTheorems

/-!
# Theorems: what the symbols of a link stand for

The files of the command line are added one after another. In the end every name that is looked up
stands for a definition, or nothing that was linked and no archive defines it; the names that remain
undefined are reported, but not those of data.
-/

namespace UosioCdt.Link.Symtab

variable {ν φ ε χ : Type}

/-! ## Consistent input -/

/-- The object defines the name for others. -/
def ObjFile.Exports (obj : ObjFile ν ε χ) (name : ν) : Prop :=
  ∃ sym ∈ obj.symbols, sym.name = name ∧ sym.definition.isSome ∧ sym.binding ≠ .bindingLocal

/-- An object file of the command line or a member. -/
def Input.HasObject (I : Input ν φ ε χ) (obj : ObjFile ν ε χ) : Prop :=
  (∃ file, (file, obj) ∈ I.objects) ∨ ∃ m, I.content m = some obj

/-- A member defines the names it is listed for, and comdats of one name define the same names. -/
structure Input.Consistent (I : Input ν φ ε χ) : Prop where
  listed : ∀ name m, (name, m) ∈ I.index → ∃ obj, I.content m = some obj ∧ obj.Exports name
  comdats : ∀ obj obj', I.HasObject obj → I.HasObject obj' → ∀ (i i' : ℕ) c,
    obj.comdats[i]? = some c → obj'.comdats[i']? = some c →
    ∀ sym ∈ obj.symbols, sym.comdat = some i → sym.definition.isSome → sym.binding ≠ .bindingLocal →
      ∃ sym' ∈ obj'.symbols, sym'.name = sym.name ∧ sym'.comdat = some i' ∧
        sym'.definition.isSome ∧ sym'.binding ≠ .bindingLocal

lemma Input.Origin.hasObject {I : Input ν φ ε χ} {files : List (LoadedFile ν φ ε χ)}
    {p : LoadedFile ν φ ε χ} (h : I.Origin files p) : I.HasObject p.obj :=
  h.elim (fun hobject => .inl ⟨_, hobject⟩) fun hmember => .inr ⟨_, hmember.1⟩

section

variable {p : LoadedFile ν φ ε χ} {sym : WasmSymbol ν ε}

/-- What a file looks up is one of its symbols in the table. -/
lemma LoadedFile.Refers.mem_tableNames (hr : p.Refers sym) (hsym : sym ∈ p.obj.symbols) :
    sym.name ∈ p.tableNames := by
  refine List.mem_map_of_mem (List.mem_filter.mpr ⟨hsym, ?_⟩)
  rcases hr with hnone | hexcluded
  · simp [hnone]
  · simp [hexcluded]

/-- A symbol that is left out with its comdat. -/
lemma excluded_comdat (h : isExcludedByComdat p.usedComdats sym = true) :
    ∃ i, sym.comdat = some i ∧ p.usedComdats[i]? = some false := by
  rw [isExcludedByComdat] at h
  cases hcomdat : sym.comdat with
  | none => cases htype : sym.type <;> simp [htype, hcomdat] at h
  | some i => cases htype : sym.type <;> simp_all

lemma included_comdat {i : ℕ} (hcomdat : sym.comdat = some i) (hi : p.usedComdats[i]? = some true) :
    isExcludedByComdat p.usedComdats sym = false := by
  rw [isExcludedByComdat, hcomdat]
  cases sym.type <;> simp [hi]

end

/-! ## Weak references -/

/-- What `handleWeakUndefines` makes of a symbol. -/
def Input.stubbed (I : Input ν φ ε χ) (name : ν) : Kind φ ε → Kind φ ε
  | .undefined (.function sig) true _ => .defined (.function sig) false none (I.stub name)
  | kind => kind

lemma Input.stubbed_stubbed (I : Input ν φ ε χ) (name : ν) (kind : Kind φ ε) :
    I.stubbed name (I.stubbed name kind) = I.stubbed name kind := by
  rcases kind with _ | ⟨_ | _ | _, _ | _, _⟩ | _ <;> rfl

section stubs

variable [DecidableEq ν] (I : Input ν φ ε χ) (t : Table ν φ ε χ)

lemma find_defineStub (name other : ν) : (I.defineStub t name).find other =
    if other = name then
      (t.find name).map fun s => ⟨I.stubbed name s.kind, s.isUsedInRegularObj⟩
    else t.find other := by
  rw [Input.defineStub]
  split
  case h_1 sig file used hs =>
    simp [Table.put, Function.update_apply, hs, Input.stubbed]
  case h_2 hs =>
    split
    case isFalse => rfl
    case isTrue ho =>
      subst ho
      cases hfind : t.find other with
      | none => rfl
      | some s =>
        obtain ⟨kind, used⟩ := s
        rcases kind with _ | ⟨_ | _ | _, _ | _, _⟩ | _ <;> simp_all [Input.stubbed]

lemma find_defineStubs (names : List ν) (other : ν) : (names.foldl I.defineStub t).find other =
    if other ∈ names then
      (t.find other).map fun s => ⟨I.stubbed other s.kind, s.isUsedInRegularObj⟩
    else t.find other := by
  induction names generalizing t with
  | nil => simp
  | cons name names ih =>
    rw [List.foldl_cons, ih, find_defineStub]
    by_cases ho : other = name
    case neg => simp [ho]
    case pos =>
      subst ho
      -- A symbol that has got a stub keeps it.
      by_cases hmem : other ∈ names <;> simp [hmem, Function.comp_def, Input.stubbed_stubbed]

/-- Only the kinds of symbols change. -/
lemma defineStub_frame (name : ν) : (I.defineStub t name).symVector = t.symVector ∧
    (I.defineStub t name).objectFiles = t.objectFiles ∧
    (I.defineStub t name).allowed = t.allowed := by
  rw [Input.defineStub]
  split
  case h_1 hs => simp [Table.put, hs]
  case h_2 => exact ⟨rfl, rfl, rfl⟩

lemma defineStubs_frame (names : List ν) :
    (names.foldl I.defineStub t).symVector = t.symVector ∧
      (names.foldl I.defineStub t).objectFiles = t.objectFiles ∧
      (names.foldl I.defineStub t).allowed = t.allowed := by
  induction names generalizing t with
  | nil => exact ⟨rfl, rfl, rfl⟩
  | cons name names ih =>
    obtain ⟨hvector, hfiles, hallowed⟩ := ih (I.defineStub t name)
    obtain ⟨hvector₁, hfiles₁, hallowed₁⟩ := defineStub_frame I t name
    exact ⟨hvector.trans hvector₁, hfiles.trans hfiles₁, hallowed.trans hallowed₁⟩

end stubs

variable [DecidableEq ν] [DecidableEq φ] [DecidableEq χ]

/-! ## The files of the command line -/

section

variable {I : Input ν φ ε χ} {objects : List φ} {listed : List (ν × φ)}
  {parsing : List (LoadedFile ν φ ε χ)} {t : Table ν φ ε χ}

lemma Input.load_loads (I : Input ν φ ε χ) (objects : List φ) (listed : List (ν × φ)) :
    Loads I objects listed I.index.length I.load := addMember_loads _

/-- The index of an archive is read from its first entry to its last. -/
lemma addLazies_spec : ∀ (index : List (ν × φ)) (listed : List (ν × φ)) (t : Table ν φ ε χ),
    index ⊆ I.index → Inv I objects listed parsing t →
      Inv I objects (listed ++ index) parsing (index.foldl (addLazy I.load) t) ∧
        Grows t (index.foldl (addLazy I.load) t) := by
  intro index
  induction index with
  | nil => exact fun listed t _ h => ⟨by simpa using h, .refl t⟩
  | cons entry index ih =>
    intro listed t hsub h
    obtain ⟨hentry, hindex⟩ := List.cons_subset.mp hsub
    obtain ⟨hinv₁, hgrows₁⟩ := addLazy_spec (I.load_loads objects listed) h (I.budget t) hentry
    obtain ⟨hinv, hgrows⟩ := ih (listed ++ [entry]) _ hindex hinv₁
    rw [List.append_assoc] at hinv
    exact ⟨hinv, hgrows₁.trans hgrows⟩

lemma addInput_spec (h : Inv I objects listed [] t) (input : InputFile ν φ ε χ)
    (hinput : input ∈ I.files) :
    Inv I (objects ++ input.objects.map (·.1)) (listed ++ input.index) [] (I.addInput t input) ∧
      Grows t (I.addInput t input) := by
  cases input with
  | object file obj =>
    have hobject : (file, obj) ∈ I.objects :=
      List.mem_flatMap.mpr ⟨_, hinput, List.mem_singleton_self _⟩
    have hcounted : (objects ++ [file] ++ t.seen.filter fun m => (I.content m).isSome).Perm
        (file :: (objects ++ t.seen.filter fun m => (I.content m).isSome)) := by
      rw [List.append_assoc]
      exact List.perm_middle
    simpa [InputFile.objects, InputFile.index, Input.addInput] using
      addFile_spec (I.load_loads (objects ++ [file]) listed) h (I.budget _)
        h.seen_nodup (List.Subset.refl _) h.seen_needed hcounted (.inl hobject)
  | archive index =>
    have hsub : index ⊆ I.index :=
      fun entry he => List.mem_flatMap.mpr ⟨_, hinput, he⟩
    simpa [InputFile.objects, InputFile.index, Input.addInput] using
      addLazies_spec index listed t hsub h

/-- All files of the command line that are left. -/
lemma addInputs_spec : ∀ (rest done : List (InputFile ν φ ε χ)) (t : Table ν φ ε χ),
    done ++ rest = I.files →
    Inv I ((done.flatMap (·.objects)).map (·.1)) (done.flatMap (·.index)) [] t →
      Inv I (I.objects.map (·.1)) I.index [] (rest.foldl I.addInput t) ∧
        Grows t (rest.foldl I.addInput t) := by
  intro rest
  induction rest with
  | nil =>
    intro done t hfiles h
    rw [List.append_nil] at hfiles
    rw [Input.objects, Input.index, ← hfiles]
    exact ⟨h, .refl t⟩
  | cons input rest ih =>
    intro done t hfiles h
    obtain ⟨hinv₁, hgrows₁⟩ := addInput_spec h input (by simp [← hfiles])
    obtain ⟨hinv, hgrows⟩ := ih (done ++ [input]) (I.addInput t input) (by simpa using hfiles)
      (by simpa using hinv₁)
    exact ⟨hinv, hgrows₁.trans hgrows⟩

/-! ## The whole link -/

lemma addForced_spec : ∀ (forced : List ν) (t : Table ν φ ε χ), forced ⊆ I.forced →
    Inv I objects listed parsing t →
      Inv I objects listed parsing (forced.foldl
        (fun t name => addUndefinedFunction I.load name none false none t) t) ∧
      Grows t (forced.foldl (fun t name => addUndefinedFunction I.load name none false none t) t) ∧
      ∀ name ∈ forced, (forced.foldl (fun t name => addUndefinedFunction I.load name none false none t)
        t).HasLookup name True := by
  intro forced
  induction forced with
  | nil => exact fun t _ h => ⟨h, .refl t, nofun⟩
  | cons name forced ih =>
    intro t hsub h
    obtain ⟨hname, hrest⟩ := List.cons_subset.mp hsub
    have hfrom : (Kind.undefined (.function none) false none : Kind φ ε).From I
        (parsing ++ t.objectFiles) name := .inl ⟨rfl, hname, rfl⟩
    obtain ⟨hinv₁, hgrows₁, hlookup⟩ := addUndefined_spec (checkFunctionType name none none) true
      (I.load_loads objects listed) h (I.budget t) (.forced hname) hfrom fun _ => .inl hname
    obtain ⟨hinv, hgrows, hall⟩ := ih _ hrest hinv₁
    refine ⟨hinv, hgrows₁.trans hgrows, List.forall_mem_cons.mpr ⟨?_, hall⟩⟩
    exact Table.HasLookup.mono ⟨hlookup.known, hlookup.fetched, fun _ => hlookup.used rfl⟩ hgrows

/-- What holds when all files have been added. -/
theorem link_inv (I : Input ν φ ε χ) : Inv I (I.objects.map (·.1)) I.index [] I.link := by
  have hsynthetics := addSynthetics_spec I.synthetics Table.empty (List.Subset.refl _)
    I.synthetics_nodup (fun _ _ => rfl) (Inv.empty (I := I))
  have hforced := (addForced_spec I.forced _ (List.Subset.refl _) hsynthetics).1
  exact (addInputs_spec I.files [] _ rfl hforced).1

theorem link_forced (I : Input ν φ ε χ) {name : ν} (hname : name ∈ I.forced) :
    I.link.HasLookup name True := by
  have hsynthetics := addSynthetics_spec I.synthetics Table.empty (List.Subset.refl _)
    I.synthetics_nodup (fun _ _ => rfl) (Inv.empty (I := I))
  obtain ⟨hinv, -, hlookup⟩ := addForced_spec I.forced _ (List.Subset.refl _) hsynthetics
  exact (hlookup name hname).mono (addInputs_spec I.files [] _ rfl hinv).2

end

/-- A name that is forced or looked up by a file that was linked. -/
def Input.Referred (I : Input ν φ ε χ) (name : ν) : Prop :=
  name ∈ I.forced ∨ ∃ p ∈ I.link.objectFiles, ∃ sym ∈ p.obj.symbols, p.Refers sym ∧ sym.name = name

section

variable {I : Input ν φ ε χ} {name : ν} {p : LoadedFile ν φ ε χ}

lemma Input.Referred.lookup (h : I.Referred name) : ∃ used, I.link.HasLookup name used := by
  rcases h with hforced | ⟨p, hp, sym, hsym, hr, rfl⟩
  · exact ⟨_, link_forced I hforced⟩
  · exact ⟨_, ((link_inv I).settled p hp sym hsym).refers hr⟩

/-- A definition that was left out stands for the one in the file that has taken the comdat. -/
lemma exports_defined (hc : I.Consistent) (hp : p ∈ I.link.objectFiles) (h : p.obj.Exports name) :
    I.link.Defined name := by
  have hinv := link_inv I
  obtain ⟨sym, hsym, rfl, hdefinition, hlocal⟩ := h
  cases hexcluded : isExcludedByComdat p.usedComdats sym with
  | false =>
    obtain ⟨definition, hd⟩ := Option.isSome_iff_exists.mp hdefinition
    exact ((hinv.settled p hp sym hsym).defines definition ⟨hd, hexcluded, hlocal⟩).defined
  | true =>
    obtain ⟨i, hi, hlost⟩ := excluded_comdat hexcluded
    have hlt : i < p.obj.comdats.length :=
      hinv.comdats_length p hp ▸ (List.getElem?_eq_some_iff.mp hlost).1
    have hname : p.obj.comdats[i]? = some p.obj.comdats[i] := List.getElem?_eq_getElem hlt
    obtain ⟨q, hq, i', hi', htaken⟩ :=
      hinv.comdats_taken _ (hinv.comdats_lost p hp i _ hlost hname)
    obtain ⟨sym', hsym', heq, hcomdat, hdefinition', hlocal'⟩ := hc.comdats p.obj q.obj
      (hinv.origin p hp).hasObject (hinv.origin q hq).hasObject i i' _ hname hi' sym hsym hi
      hdefinition hlocal
    obtain ⟨definition, hd⟩ := Option.isSome_iff_exists.mp hdefinition'
    exact heq ▸ ((hinv.settled q hq sym' hsym').defines definition
      ⟨hd, included_comdat hcomdat htaken, hlocal'⟩).defined

/-- A member that was parsed is one of the files that were linked. -/
lemma seen_linked {m : φ} {obj : ObjFile ν ε χ} (hm : m ∈ I.link.seen)
    (hcontent : I.content m = some obj) : ∃ p ∈ I.link.objectFiles, p.obj = obj := by
  have hinv := link_inv I
  have hmem : m ∈ I.link.objectFiles.map (·.file) := by
    refine hinv.counted.mem_iff.mpr (List.mem_append_right _ ?_)
    simp [hm, hcontent]
  obtain ⟨p, hp, rfl⟩ := List.mem_map.mp hmem
  refine ⟨p, hp, ?_⟩
  rcases hinv.origin p hp with hobject | ⟨hmember, -⟩
  · -- No file of the command line is a member.
    obtain ⟨name, -, hlisted⟩ := hinv.seen_needed _ hm
    exact absurd rfl (I.member_ne _ hlisted _ hobject)
  · exact Option.some.inj (hmember.symm.trans hcontent)

lemma listed_defined (hc : I.Consistent) {m : φ} (hlisted : (name, m) ∈ I.index)
    (hm : m ∈ I.link.seen) : I.link.Defined name := by
  obtain ⟨obj, hcontent, hexports⟩ := hc.listed name m hlisted
  obtain ⟨p, hp, rfl⟩ := seen_linked hm hcontent
  exact exports_defined hc hp hexports

end

/-! ## What is linked -/

/-- The files of the command line are linked, and no member of an archive twice, and none that
nothing needs. No member is left out that is listed for a name that is still missing. -/
theorem link_loads (I : Input ν φ ε χ) :
    (I.link.objectFiles.map (·.file)).Perm
        (I.objects.map (·.1) ++ I.link.seen.filter fun m => (I.content m).isSome) ∧
      (∀ p ∈ I.link.objectFiles, (p.file, p.obj) ∈ I.objects ∨ I.content p.file = some p.obj) ∧
      I.link.seen.Nodup ∧
      (∀ m ∈ I.link.seen, I.Needed I.link.objectFiles m) ∧
      (∀ name type weak file, I.link.kindOf name = some (.undefined type weak file) →
        ∀ m, (name, m) ∈ I.index → m ∈ I.link.seen) ∧
      ∀ name m, I.Referred name → I.link.kindOf name = some (.lazyKind m) → m ∈ I.link.seen := by
  have hinv := link_inv I
  refine ⟨hinv.counted, fun p hp => ?_, hinv.seen_nodup, hinv.seen_needed, hinv.closed,
    fun name m hr hk => ?_⟩
  · exact (hinv.origin p hp).imp id And.left
  obtain ⟨used, hlookup⟩ := hr.lookup
  exact hlookup.fetched m hk

/-- A name that is looked up stands for a definition of the linker or of a file that was linked, or
none of these files and no member of an archive defines it. -/
theorem link_resolves (I : Input ν φ ε χ) (hc : I.Consistent) {name : ν} (hr : I.Referred name) :
    (I.link.Defined name ∧ ((∃ s ∈ I.synthetics, s.name = name) ∨
      ∃ p ∈ I.link.objectFiles, p.obj.Exports name)) ∨
    ((∃ type weak file, I.link.kindOf name = some (.undefined type weak file)) ∧
      (∀ m, (name, m) ∉ I.index) ∧ ∀ p ∈ I.link.objectFiles, ¬ p.obj.Exports name) := by
  have hinv := link_inv I
  obtain ⟨used, hlookup⟩ := hr.lookup
  obtain ⟨kind, hk⟩ := Option.ne_none_iff_exists'.mp hlookup.known
  cases kind with
  | defined type weak file definition =>
    refine .inl ⟨⟨_, _, _, _, hk⟩, ?_⟩
    rcases hinv.from_files name _ hk with ⟨-, hs⟩ | ⟨p, hp, -, sym, hsym, hd, rfl, -⟩
    · exact .inl ⟨_, hs, rfl⟩
    · exact .inr ⟨p, hp, sym, hsym, rfl, by simp [hd.1], hd.2.2⟩
  | lazyKind m =>
    -- The member was parsed, and it defines the name.
    have hm : m ∈ I.link.seen := hlookup.fetched m hk
    obtain ⟨_, _, _, _, hd⟩ := listed_defined hc (hinv.lazy_listed name m hk) hm
    cases hk.symm.trans hd
  | undefined type weak file =>
    have hnot : ¬ I.link.Defined name := fun ⟨_, _, _, _, hd⟩ => by cases hk.symm.trans hd
    refine .inr ⟨⟨type, weak, file, hk⟩, fun m hlisted => hnot ?_, fun p hp he => hnot ?_⟩
    · exact listed_defined hc hlisted (hinv.closed name type weak file hk m hlisted)
    · exact exports_defined hc hp he

/-- The names of a small program: `main` of an object file calls `memcpy` of a library, and `print`
and `hook`, which nothing defines. -/
inductive ProgramName where
  | callCtors
  | main
  | memcpy
  | print
  | hook
deriving DecidableEq

def programFunction (name : ProgramName) (binding : Binding) (definition : Option ℕ)
    (comdat : Option ℕ) : WasmSymbol ProgramName ℕ :=
  ⟨name, .function (some ⟨[], 64⟩), binding, definition, comdat⟩

def mainObject : ObjFile ProgramName ℕ String where
  comdats := []
  symbols :=
    [programFunction .main .bindingGlobal (some 1) none,
     programFunction .memcpy .bindingGlobal none none,
     programFunction .print .bindingGlobal none none,
     programFunction .hook .bindingWeak none none]
  allowedImports := [.print]

def memcpyObject : ObjFile ProgramName ℕ String where
  comdats := ["memcpy"]
  symbols := [programFunction .memcpy .bindingWeak (some 2) (some 0)]
  allowedImports := []

/-- The library comes first, so that its symbol is lazy until `main` is parsed. -/
def program : Input ProgramName ℕ ℕ String where
  entry := .main
  synthetics :=
    [⟨.callCtors, .function (some ⟨[], 64⟩), false, 0⟩,
     ⟨.main, .function (some ⟨[126, 126, 126], 64⟩), true, 4⟩]
  forced := [.main]
  files := [.archive [(.memcpy, 10)], .object 0 mainObject]
  content file := if file = 10 then some memcpyObject else none
  allowUndefinedSymbols := []
  stub _ := 3
  synthetics_nodup := by decide
  member_ne := by simp [InputFile.index, InputFile.objects]

lemma program_files : program.link.objectFiles =
    [⟨10, memcpyObject, [true]⟩, ⟨0, mainObject, []⟩] := rfl

lemma program_object {obj : ObjFile ProgramName ℕ String} (h : program.HasObject obj) :
    obj = mainObject ∨ obj = memcpyObject := by
  rcases h with ⟨file, hobject⟩ | ⟨m, hcontent⟩
  · cases (List.mem_singleton.mp hobject : (file, obj) = (0, mainObject))
    exact .inl rfl
  · simp only [program, Option.ite_none_right_eq_some, Option.some.injEq] at hcontent
    exact .inr hcontent.2.symm

lemma program_consistent : program.Consistent where
  listed name m h := by
    have heq : (name, m) = (.memcpy, 10) := List.mem_singleton.mp h
    cases heq
    exact ⟨memcpyObject, rfl, _, List.mem_singleton_self _, rfl, rfl, nofun⟩
  comdats obj obj' hobj hobj' i i' c hi hi' sym hsym hcomdat hdefinition hlocal := by
    rcases program_object hobj with rfl | rfl
    · simp [mainObject] at hi
    rcases program_object hobj' with rfl | rfl
    · simp [mainObject] at hi'
    -- There is one comdat in the program.
    have hzero : ∀ (j : ℕ), memcpyObject.comdats[j]? = some c → j = 0 := fun j hj => by
      have hlt : j < 1 := (List.getElem?_eq_some_iff.mp hj).1
      omega
    exact ⟨sym, hsym, rfl, by rw [hcomdat, hzero i hi, hzero i' hi'], hdefinition, hlocal⟩

theorem link_resolves_memcpy : program.link.Defined .memcpy := by
  have hr : program.Referred .memcpy := by
    refine .inr ⟨⟨0, mainObject, []⟩, by simp [program_files],
      programFunction .memcpy .bindingGlobal none none, by simp [mainObject], .inl rfl, rfl⟩
  rcases link_resolves program program_consistent hr with hdefined | hundefined
  · exact hdefined.1
  · exact absurd (List.mem_singleton_self _) (hundefined.2.1 10)

/-- When there was no error, a definition is that of a symbol of the linker or of a file, and it is
the strong one of every file that has one: it is weak only if all of them are. -/
theorem link_definition (I : Input ν φ ε χ) (he : I.link.errors = []) {name : ν} {type : SymbolType}
    {weak : Bool} {file : Option φ} {definition : ε}
    (hk : I.link.kindOf name = some (.defined type weak file definition)) :
    ((file = none ∧ ⟨name, type, weak, definition⟩ ∈ I.synthetics) ∨
      ∃ p ∈ I.link.objectFiles, file = some p.file ∧ ∃ sym ∈ p.obj.symbols,
        p.Defines sym definition ∧ sym.name = name ∧ sym.type = type ∧ sym.isWeak = weak) ∧
    ∀ p ∈ I.link.objectFiles, ∀ sym ∈ p.obj.symbols, sym.name = name → sym.isWeak = false →
      ∀ definition', p.Defines sym definition' →
        type = sym.type ∧ weak = false ∧ file = some p.file ∧ definition = definition' := by
  have hinv := link_inv I
  refine ⟨hinv.from_files name _ hk, fun p hp sym hsym hname hstrong definition' hd => ?_⟩
  subst hname
  have hkept := ((hinv.settled p hp sym hsym).defines definition' hd).strong hstrong he
  cases hk.symm.trans hkept
  exact ⟨rfl, rfl, rfl, rfl⟩

theorem link_definition_main : ∃ p ∈ program.link.objectFiles, p.file = 0 ∧
    ∃ sym ∈ p.obj.symbols, p.Defines sym 1 ∧ sym.name = .main ∧ sym.isWeak = false := by
  have hk : program.link.kindOf .main =
      some (.defined (.function (some ⟨[], 64⟩)) false (some 0) 1) := by rfl
  rcases (link_definition program (by rfl) hk).1 with
    ⟨hnone, -⟩ | ⟨p, hp, hfile, sym, hsym, hd, hname, -, hweak⟩
  · cases hnone
  · exact ⟨p, hp, (Option.some.inj hfile).symm, sym, hsym, hd, hname, hweak⟩

/-! ## What is reported -/

lemma find_handleWeakUndefines (I : Input ν φ ε χ) (name : ν) :
    (I.handleWeakUndefines I.link).find name =
      (I.link.find name).map fun s => ⟨I.stubbed name s.kind, s.isUsedInRegularObj⟩ := by
  rw [Input.handleWeakUndefines, find_defineStubs]
  split
  case isTrue => rfl
  case isFalse hnot =>
    rw [(link_inv I).symVector name, not_not] at hnot
    have hnone : I.link.find name = none := by simpa [Table.kindOf] using hnot
    rw [hnone, Option.map_none]

lemma mem_undefs (I : Input ν φ ε χ) (name : ν) :
    name ∈ I.undefs (I.handleWeakUndefines I.link) ↔
      (∃ type file, I.link.find name = some ⟨.undefined type false file, true⟩) ∧
        name ∉ I.allowUndefinedSymbols ∧ name ∉ I.link.allowed := by
  obtain ⟨hvector, -, hallowed⟩ := defineStubs_frame I I.link I.link.symVector
  rw [Input.undefs, List.mem_filter, find_handleWeakUndefines, Input.handleWeakUndefines, hvector,
    hallowed, (link_inv I).symVector, Table.kindOf]
  cases I.link.find name with
  | none => simp
  | some s =>
    obtain ⟨kind, used⟩ := s
    rcases kind with _ | ⟨_ | _ | _, _ | _, _⟩ | _ <;>
      simp [Input.stubbed, and_comm]

/-- When nothing is reported, each function and each global that a file looks up is defined, or one
of the exceptions applies: a list of the command line or of a file allows the name, or the first
reference was weak and not to a function. -/
theorem reportRemainingUndefines_nil (I : Input ν φ ε χ) (hc : I.Consistent)
    (hreport : I.reportRemainingUndefines (I.handleWeakUndefines I.link) = [])
    {p : LoadedFile ν φ ε χ} (hp : p ∈ I.link.objectFiles) {sym : WasmSymbol ν ε}
    (hsym : sym ∈ p.obj.symbols) (hr : p.Refers sym) (hdata : sym.type ≠ .data) :
    (I.handleWeakUndefines I.link).Defined sym.name ∨ sym.name ∈ I.allowUndefinedSymbols ∨
      (∃ q ∈ I.link.objectFiles, sym.name ∈ q.obj.allowedImports) ∨
      ∃ q ∈ I.link.objectFiles, ∃ sym' ∈ q.obj.symbols, q.Refers sym' ∧ sym'.name = sym.name ∧
        sym'.isWeak = true ∧ ∀ sig, sym'.type ≠ .function sig := by
  have hinv := link_inv I
  obtain ⟨s, hs, hused⟩ := ((hinv.settled p hp sym hsym).refers hr).used hdata
  obtain ⟨kind, used⟩ := s
  have hk : I.link.kindOf sym.name = some kind := by simp [Table.kindOf, hs]
  have hk' : (I.handleWeakUndefines I.link).kindOf sym.name = some (I.stubbed sym.name kind) := by
    simp [Table.kindOf, find_handleWeakUndefines, hs]
  rcases link_resolves I hc (.inr ⟨p, hp, sym, hsym, hr, rfl⟩) with ⟨hd, -⟩ | ⟨hundefined, -⟩
  · obtain ⟨type, weak, file, definition, hd⟩ := hd
    cases hk.symm.trans hd
    exact .inl ⟨_, _, _, _, hk'⟩
  · obtain ⟨type, weak, file, hundefined⟩ := hundefined
    cases hk.symm.trans hundefined
    cases weak with
    | true =>
      cases htype : type with
      | function sig =>
        -- The function has got a stub.
        rw [htype] at hk'
        exact .inl ⟨_, _, _, _, hk'⟩
      | _ =>
        rcases hinv.from_files _ _ hk with
          ⟨-, -, hweak⟩ | ⟨q, hq, -, sym', hsym', hr', hname, ht, hw⟩
        · cases hweak
        · refine .inr (.inr (.inr ⟨q, hq, sym', hsym', hr', hname, hw, fun sig hsig => ?_⟩))
          cases htype.symm.trans (ht.symm.trans hsig)
    | false =>
      by_cases hallow : sym.name ∈ I.allowUndefinedSymbols
      · exact .inr (.inl hallow)
      by_cases hallowed : sym.name ∈ I.link.allowed
      · obtain ⟨q, hq, -, hname⟩ := hinv.allowed_from _ hallowed
        exact .inr (.inr (.inl ⟨q, hq, hname⟩))
      -- The name is undefined for the file that looks it up.
      have hmem : sym.name ∈ I.undefs (I.handleWeakUndefines I.link) :=
        (mem_undefs I sym.name).mpr ⟨⟨type, file, hused ▸ hs⟩, hallow, hallowed⟩
      have herror : (some p.file, sym.name) ∈
          I.reportRemainingUndefines (I.handleWeakUndefines I.link) := by
        refine List.mem_append_left _ (List.mem_flatMap.mpr ⟨p, ?_, ?_⟩)
        · exact (defineStubs_frame I I.link I.link.symVector).2.1.symm ▸ hp
        · refine List.mem_map_of_mem (List.mem_filter.mpr ⟨hr.mem_tableNames hsym, ?_⟩)
          exact decide_eq_true hmem
      rw [hreport] at herror
      cases herror

theorem reportRemainingUndefines_nil_hook :
    (program.handleWeakUndefines program.link).Defined .hook := by
  have hp : (⟨0, mainObject, []⟩ : LoadedFile ProgramName ℕ ℕ String) ∈
      program.link.objectFiles := by simp [program_files]
  have hsym : programFunction .hook .bindingWeak none none ∈ mainObject.symbols := by
    simp [mainObject]
  rcases reportRemainingUndefines_nil program program_consistent (by rfl) hp hsym (.inl rfl) nofun
    with hdefined | hallow | ⟨q, hq, himport⟩ | ⟨q, hq, sym, hsym, -, -, -, htype⟩
  · exact hdefined
  · cases hallow
  · simp only [program_files, List.mem_cons, List.not_mem_nil, or_false] at hq
    rcases hq with rfl | rfl <;> simp [memcpyObject, mainObject, programFunction] at himport
  · simp only [program_files, List.mem_cons, List.not_mem_nil, or_false] at hq
    rcases hq with rfl | rfl <;> simp [memcpyObject, mainObject] at hsym <;>
      rcases hsym with rfl | rfl | rfl | rfl <;> exact absurd rfl (htype _)

/-- What is reported is not defined and not allowed, and it is forced, or a file looks it up as a
function or a global. A variable that nothing defines is not reported. -/
theorem mem_reportRemainingUndefines (I : Input ν φ ε χ) {file : Option φ} {name : ν}
    (h : (file, name) ∈ I.reportRemainingUndefines (I.handleWeakUndefines I.link)) :
    (∃ type first, I.link.kindOf name = some (.undefined type false first)) ∧
      name ∉ I.allowUndefinedSymbols ∧
      (∀ p ∈ I.link.objectFiles, name ∈ p.obj.symbols.map (·.name) → name ∉ p.obj.allowedImports) ∧
      (name ∈ I.forced ∨ ∃ p ∈ I.link.objectFiles, ∃ sym ∈ p.obj.symbols, p.Refers sym ∧
        sym.name = name ∧ sym.type ≠ .data) := by
  have hinv := link_inv I
  have hmem : name ∈ I.undefs (I.handleWeakUndefines I.link) := by
    rcases List.mem_append.mp h with hfile | hforced
    · obtain ⟨p, -, hp⟩ := List.mem_flatMap.mp hfile
      obtain ⟨name', hname', heq⟩ := List.mem_map.mp hp
      cases heq
      simpa using (List.mem_filter.mp hname').2
    · obtain ⟨name', hname', heq⟩ := List.mem_map.mp hforced
      cases heq
      exact (List.mem_filter.mp hname').1
  obtain ⟨⟨type, first, hs⟩, hallow, hallowed⟩ := (mem_undefs I name).mp hmem
  have hk : I.link.kindOf name = some (.undefined type false first) := by simp [Table.kindOf, hs]
  refine ⟨⟨type, first, hk⟩, hallow, fun p hp hname himport => hallowed ?_, ?_⟩
  · obtain ⟨sym, hsym, rfl⟩ := List.mem_map.mp hname
    exact (hinv.settled p hp sym hsym).allowed himport
  · rcases hinv.used_from name ⟨_, hs, rfl⟩ with hforced | ⟨p, hp, sym, hsym, rfl, hwhy⟩
    · exact .inl hforced
    · refine .inr ⟨p, hp, sym, hsym, ?_⟩
      rcases hwhy with ⟨definition, hd⟩ | ⟨hr, ht⟩
      · obtain ⟨_, _, _, _, hdefined⟩ :=
          ((hinv.settled p hp sym hsym).defines definition hd).defined
        cases hk.symm.trans hdefined
      · exact ⟨hr, rfl, ht⟩

/-- The program without the library, in which `print` is not allowed. -/
def brokenProgram : Input ProgramName ℕ ℕ String :=
  { program with
    files := [.object 0 { mainObject with allowedImports := [] }]
    member_ne := by simp [InputFile.index] }

theorem mem_reportRemainingUndefines_print :
    (some 0, ProgramName.print) ∈ brokenProgram.reportRemainingUndefines
        (brokenProgram.handleWeakUndefines brokenProgram.link) ∧
      ∃ type first, brokenProgram.link.kindOf .print = some (.undefined type false first) := by
  have hmem : (some 0, ProgramName.print) ∈ brokenProgram.reportRemainingUndefines
      (brokenProgram.handleWeakUndefines brokenProgram.link) := by decide
  exact ⟨hmem, (mem_reportRemainingUndefines brokenProgram hmem).1⟩

end UosioCdt.Link.Symtab
