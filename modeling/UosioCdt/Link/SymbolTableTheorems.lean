import UosioCdt.Link.SymbolTable
import Mathlib.Data.List.Perm.Basic

/-!
# Theorems: which files are linked, and what their symbols stand for

A member of an archive is parsed while another file is, so all that is known holds in the middle of
a file: `Inv` has the files that are being parsed as a parameter. A step from one table to another
is `Grows`, and `Loads` is what is assumed of the loader of members inside of the functions that
call it.
-/

namespace UosioCdt.Link.Symtab

variable {ν φ ε χ : Type}

/-! ## What is said of symbols and files -/

/-- The kind of the symbol of a name. -/
def Table.kindOf (t : Table ν φ ε χ) (name : ν) : Option (Kind φ ε) := (t.find name).map (·.kind)

def Table.used (t : Table ν φ ε χ) (name : ν) : Prop :=
  ∃ s, t.find name = some s ∧ s.isUsedInRegularObj = true

/-- There is a definition of the symbol. -/
def Table.Defined (t : Table ν φ ε χ) (name : ν) : Prop :=
  ∃ type weak file definition, t.kindOf name = some (.defined type weak file definition)

/-- What can become of the symbol of a name. -/
inductive Evolves : Option (Kind φ ε) → Option (Kind φ ε) → Prop
  | same (kind) : Evolves kind kind
  | fresh (kind) : Evolves none (some kind)
  | define (kind type weak file definition) :
      Evolves (some kind) (some (.defined type weak file definition))

/-- A symbol of the file that defines something in the table. -/
def LoadedFile.Defines (p : LoadedFile ν φ ε χ) (sym : WasmSymbol ν ε) (definition : ε) : Prop :=
  sym.definition = some definition ∧ isExcludedByComdat p.usedComdats sym = false ∧
    sym.binding ≠ .bindingLocal

/-- A symbol of the file that is looked up in the table. -/
def LoadedFile.Refers (p : LoadedFile ν φ ε χ) (sym : WasmSymbol ν ε) : Prop :=
  sym.definition = none ∨ isExcludedByComdat p.usedComdats sym = true

/-- The file has taken the comdat. -/
def LoadedFile.Takes (p : LoadedFile ν φ ε χ) (name : χ) : Prop :=
  ∃ i : ℕ, p.obj.comdats[i]? = some name ∧ p.usedComdats[i]? = some true

/-- A name that is looked up by the command line, by one of the files that is an object there, or by
one that is a member listed for such a name. -/
inductive Input.Wanted (I : Input ν φ ε χ) (files : List (LoadedFile ν φ ε χ)) : ν → Prop
  | forced {name} (h : name ∈ I.forced) : Wanted I files name
  | object {p sym} (hp : p ∈ files) (hobject : (p.file, p.obj) ∈ I.objects)
      (hsym : sym ∈ p.obj.symbols) (hr : p.Refers sym) : Wanted I files sym.name
  | member {p sym name} (hp : p ∈ files) (hc : I.content p.file = some p.obj)
      (h : Wanted I files name) (hlisted : (name, p.file) ∈ I.index)
      (hsym : sym ∈ p.obj.symbols) (hr : p.Refers sym) : Wanted I files sym.name

/-- A member that is listed for such a name. -/
def Input.Needed (I : Input ν φ ε χ) (files : List (LoadedFile ν φ ε χ)) (m : φ) : Prop :=
  ∃ name, I.Wanted files name ∧ (name, m) ∈ I.index

/-- Where a file comes from. -/
def Input.Origin (I : Input ν φ ε χ) (files : List (LoadedFile ν φ ε χ))
    (p : LoadedFile ν φ ε χ) : Prop :=
  (p.file, p.obj) ∈ I.objects ∨ (I.content p.file = some p.obj ∧ I.Needed files p.file)

/-- The kind is that of a symbol of the linker, of a forced name, or of a symbol in one of the
files. -/
def Kind.From (I : Input ν φ ε χ) (files : List (LoadedFile ν φ ε χ)) (name : ν) : Kind φ ε → Prop
  | .defined type weak file definition =>
    (file = none ∧ ⟨name, type, weak, definition⟩ ∈ I.synthetics) ∨
      ∃ p ∈ files, file = some p.file ∧ ∃ sym ∈ p.obj.symbols, p.Defines sym definition ∧
        sym.name = name ∧ sym.type = type ∧ sym.isWeak = weak
  | .undefined type weak file =>
    (file = none ∧ name ∈ I.forced ∧ weak = false) ∨
      ∃ p ∈ files, file = some p.file ∧ ∃ sym ∈ p.obj.symbols, p.Refers sym ∧
        sym.name = name ∧ sym.type = type ∧ sym.isWeak = weak
  | .lazyKind _ => True

/-- Something sets `IsUsedInRegularObj`. -/
def Input.UsedFrom (I : Input ν φ ε χ) (files : List (LoadedFile ν φ ε χ)) (name : ν) : Prop :=
  name ∈ I.forced ∨ ∃ p ∈ files, ∃ sym ∈ p.obj.symbols, sym.name = name ∧
    ((∃ definition, p.Defines sym definition) ∨ (p.Refers sym ∧ sym.type ≠ .data))

/-- A symbol of the file has given its definition to the table, which keeps it when it is strong. -/
structure Table.HasDefinition (t : Table ν φ ε χ) (p : LoadedFile ν φ ε χ) (sym : WasmSymbol ν ε)
    (definition : ε) : Prop where
  defined : t.Defined sym.name
  used : t.used sym.name
  strong : sym.isWeak = false → t.errors = [] →
    t.kindOf sym.name = some (.defined sym.type false (some p.file) definition)

/-- A name has been looked up; `used` says whether this sets `IsUsedInRegularObj`. -/
structure Table.HasLookup (t : Table ν φ ε χ) (name : ν) (used : Prop) : Prop where
  known : t.kindOf name ≠ none
  fetched : ∀ m, t.kindOf name = some (.lazyKind m) → m ∈ t.seen
  used : used → t.used name

/-- What a symbol of a file has done to the table. -/
structure Settled (t : Table ν φ ε χ) (p : LoadedFile ν φ ε χ) (sym : WasmSymbol ν ε) : Prop where
  allowed : sym.name ∈ p.obj.allowedImports → sym.name ∈ t.allowed
  defines : ∀ definition, p.Defines sym definition → t.HasDefinition p sym definition
  refers : p.Refers sym → t.HasLookup sym.name (sym.type ≠ .data)

/-- The table has grown to `t'`. -/
structure Grows (t t' : Table ν φ ε χ) : Prop where
  kind : ∀ name, Evolves (t.kindOf name) (t'.kindOf name)
  strong : ∀ name type file definition,
    t.kindOf name = some (.defined type false file definition) → t'.errors = [] →
      t'.kindOf name = t.kindOf name
  used : ∀ name, t.used name → t'.used name
  allowed : t.allowed ⊆ t'.allowed
  errors : t'.errors = [] → t.errors = []
  seen : t.seen ⊆ t'.seen

/-- What holds between two symbols: `objects` are the files of the command line and `listed` the
entries of archives that were begun, and `parsing` are the files in the middle of which the table
is. -/
structure Inv (I : Input ν φ ε χ) (objects : List φ) (listed : List (ν × φ))
    (parsing : List (LoadedFile ν φ ε χ)) (t : Table ν φ ε χ) : Prop where
  symVector : ∀ name, name ∈ t.symVector ↔ t.kindOf name ≠ none
  seen_nodup : t.seen.Nodup
  seen_needed : ∀ m ∈ t.seen, I.Needed (parsing ++ t.objectFiles) m
  counted : ((parsing ++ t.objectFiles).map (·.file)).Perm
    (objects ++ t.seen.filter fun m => (I.content m).isSome)
  origin : ∀ p ∈ parsing ++ t.objectFiles, I.Origin (parsing ++ t.objectFiles) p
  listed_sub : listed ⊆ I.index
  known : ∀ name m, (name, m) ∈ listed → t.kindOf name ≠ none
  lazy_listed : ∀ name m, t.kindOf name = some (.lazyKind m) → (name, m) ∈ I.index
  closed : ∀ name type weak file, t.kindOf name = some (.undefined type weak file) →
    ∀ m, (name, m) ∈ listed → m ∈ t.seen
  from_files : ∀ name kind, t.kindOf name = some kind →
    kind.From I (parsing ++ t.objectFiles) name
  used_from : ∀ name, t.used name → I.UsedFrom (parsing ++ t.objectFiles) name
  allowed_from : ∀ name ∈ t.allowed, ∃ p ∈ parsing ++ t.objectFiles,
    name ∈ p.obj.symbols.map (·.name) ∧ name ∈ p.obj.allowedImports
  comdats_taken : ∀ name ∈ t.comdats, ∃ p ∈ parsing ++ t.objectFiles, p.Takes name
  comdats_length : ∀ p ∈ parsing ++ t.objectFiles, p.usedComdats.length = p.obj.comdats.length
  comdats_lost : ∀ p ∈ parsing ++ t.objectFiles, ∀ (i : ℕ) name, p.usedComdats[i]? = some false →
    p.obj.comdats[i]? = some name → name ∈ t.comdats
  settled : ∀ p ∈ t.objectFiles, ∀ sym ∈ p.obj.symbols, Settled t p sym

/-- The members that are not parsed yet are so few. -/
def Input.Budget [DecidableEq φ] (I : Input ν φ ε χ) (k : ℕ) (t : Table ν φ ε χ) : Prop :=
  (I.index.map (·.2)).countP (· ∉ t.seen) ≤ k

/-- The loader keeps the invariant in the middle of any files, and parses the member. -/
def Loads [DecidableEq φ] (I : Input ν φ ε χ) (objects : List φ) (listed : List (ν × φ)) (k : ℕ)
    (load : φ → Table ν φ ε χ → Table ν φ ε χ) : Prop :=
  ∀ parsing t m, Inv I objects listed parsing t → I.Budget k t →
    I.Needed (parsing ++ t.objectFiles) m →
    Inv I objects listed parsing (load m t) ∧ Grows t (load m t) ∧ m ∈ (load m t).seen

/-! ## Growing tables -/

lemma Evolves.trans {a b c : Option (Kind φ ε)} (h : Evolves a b) (h' : Evolves b c) :
    Evolves a c := by
  cases h' with
  | same => exact h
  | fresh kind =>
    cases h
    exact .fresh kind
  | define kind type weak file definition =>
    cases h with
    | same => exact .define ..
    | fresh => exact .fresh _
    | define => exact .define ..

lemma Evolves.ne_none {a b : Option (Kind φ ε)} (h : Evolves a b) (ha : a ≠ none) : b ≠ none := by
  cases h <;> simp_all

/-- A lazy symbol was there before, or nothing was. -/
lemma Evolves.of_lazy {a : Option (Kind φ ε)} {m : φ} (h : Evolves a (some (.lazyKind m)))
    (ha : a ≠ none) : a = some (.lazyKind m) := by
  cases h <;> simp_all

lemma Evolves.defined {a b : Option (Kind φ ε)} (h : Evolves a b) {type weak file definition}
    (ha : a = some (.defined type weak file definition)) :
    ∃ type weak file definition, b = some (.defined type weak file definition) := by
  subst ha
  cases h with
  | same => exact ⟨_, _, _, _, rfl⟩
  | define => exact ⟨_, _, _, _, rfl⟩

lemma Grows.refl (t : Table ν φ ε χ) : Grows t t where
  kind _ := .same _
  strong _ _ _ _ _ _ := rfl
  used _ h := h
  allowed _ h := h
  errors h := h
  seen _ h := h

lemma Grows.trans {t t' t'' : Table ν φ ε χ} (h : Grows t t') (h' : Grows t' t'') :
    Grows t t'' where
  kind name := (h.kind name).trans (h'.kind name)
  strong name type file definition hk he := by
    have hfirst := h.strong name type file definition hk (h'.errors he)
    rw [h'.strong name type file definition (hfirst.trans hk) he, hfirst]
  used name hu := h'.used name (h.used name hu)
  allowed := fun _ ha => h'.allowed (h.allowed ha)
  errors he := h.errors (h'.errors he)
  seen := fun _ hm => h'.seen (h.seen hm)

/-- Members are marked in `Seen`. -/
lemma Grows.mark {t : Table ν φ ε χ} {seen' : List φ} (h : t.seen ⊆ seen') :
    Grows t { t with seen := seen' } :=
  { Grows.refl t with seen := h }

lemma Grows.defined {t t' : Table ν φ ε χ} (h : Grows t t') {name : ν} (hd : t.Defined name) :
    t'.Defined name := by
  obtain ⟨type, weak, file, definition, hk⟩ := hd
  exact (h.kind name).defined hk

lemma Table.HasDefinition.mono {t t' : Table ν φ ε χ} {p : LoadedFile ν φ ε χ}
    {sym : WasmSymbol ν ε} {definition : ε} (hd : t.HasDefinition p sym definition)
    (h : Grows t t') : t'.HasDefinition p sym definition where
  defined := h.defined hd.defined
  used := h.used _ hd.used
  strong hweak he := by
    have hk := hd.strong hweak (h.errors he)
    rw [h.strong _ _ _ _ hk he, hk]

lemma Table.HasLookup.mono {t t' : Table ν φ ε χ} {name : ν} {used : Prop}
    (hl : t.HasLookup name used) (h : Grows t t') : t'.HasLookup name used where
  known := (h.kind name).ne_none hl.known
  fetched m hm := h.seen (hl.fetched m ((hm ▸ h.kind name).of_lazy hl.known))
  used hu := h.used _ (hl.used hu)

lemma Settled.mono {t t' : Table ν φ ε χ} {p : LoadedFile ν φ ε χ} {sym : WasmSymbol ν ε}
    (hs : Settled t p sym) (h : Grows t t') : Settled t' p sym where
  allowed ha := h.allowed (hs.allowed ha)
  defines definition hd := (hs.defines definition hd).mono h
  refers hr := (hs.refers hr).mono h

/-! ## Steps that change no symbol -/

variable {I : Input ν φ ε χ} {objects : List φ} {listed : List (ν × φ)}
  {parsing : List (LoadedFile ν φ ε χ)} {t₀ t t' : Table ν φ ε χ} {name : ν} {kind : Kind φ ε}

lemma grows_report (t : Table ν φ ε χ) (messages : List (Message ν φ)) :
    Grows t (t.report messages) where
  kind _ := .same _
  strong _ _ _ _ _ _ := rfl
  used _ h := h
  allowed _ h := h
  errors h := by
    rw [Table.errors, Table.report, List.filter_append, List.append_eq_nil_iff] at h
    exact h.1
  seen _ h := h

lemma errors_report_duplicate (t : Table ν φ ε χ) (messages : List (Message ν φ))
    (oldFile file : Option φ) :
    (t.report (messages ++ [.duplicateSymbol name oldFile file])).errors ≠ [] := by
  simp [Table.errors, Table.report, List.filter_append, Message.isError]

lemma Inv.report (h : Inv I objects listed parsing t) (messages : List (Message ν φ)) :
    Inv I objects listed parsing (t.report messages) :=
  { h with
    settled := fun p hp sym hsym => (h.settled p hp sym hsym).mono (grows_report t messages) }

lemma Inv.empty : Inv I [] [] [] Table.empty where
  symVector name := by simp [Table.empty, Table.kindOf]
  seen_nodup := List.nodup_nil
  seen_needed := nofun
  counted := .refl _
  origin := nofun
  listed_sub := nofun
  known := nofun
  lazy_listed name m hk := by simp [Table.empty, Table.kindOf] at hk
  closed := nofun
  from_files name kind hk := by simp [Table.empty, Table.kindOf] at hk
  used_from name hu := by simp [Table.empty, Table.used] at hu
  allowed_from := nofun
  comdats_taken := nofun
  comdats_length := nofun
  comdats_lost := nofun
  settled := nofun

/-- An entry of an archive has been read. -/
lemma Inv.list (h : Inv I objects listed parsing t) {entry : ν × φ} (hindex : entry ∈ I.index)
    (hknown : t.kindOf entry.1 ≠ none)
    (hclosed : ∀ type weak file, t.kindOf entry.1 = some (.undefined type weak file) →
      entry.2 ∈ t.seen) : Inv I objects (listed ++ [entry]) parsing t :=
  { h with
    listed_sub := List.append_subset.mpr ⟨h.listed_sub, by simpa using hindex⟩
    known := fun name m hm => by
      rcases List.mem_append.mp hm with hold | hnew
      · exact h.known name m hold
      · cases List.mem_singleton.mp hnew
        exact hknown
    closed := fun name type weak file hk m hm => by
      rcases List.mem_append.mp hm with hold | hnew
      · exact h.closed name type weak file hk m hold
      · cases List.mem_singleton.mp hnew
        exact hclosed type weak file hk }

/-! ## One symbol -/

section put

variable [DecidableEq ν] {used : Bool}

lemma kindOf_put (t : Table ν φ ε χ) (name : ν) (kind : Kind φ ε) (used : Bool) (other : ν) :
    (t.put name kind used).kindOf other = if other = name then some kind else t.kindOf other := by
  simp only [Table.kindOf, Table.put, Function.update_apply]
  split <;> rfl

lemma used_put (t : Table ν φ ε χ) (name : ν) (kind : Kind φ ε) (used : Bool) (other : ν) :
    (t.put name kind used).used other ↔ if other = name then used = true else t.used other := by
  simp only [Table.used, Table.put, Function.update_apply]
  split
  · exact ⟨fun ⟨s, hs, hu⟩ => by cases hs; exact hu, fun hu => ⟨_, rfl, hu⟩⟩
  · exact Iff.rfl

lemma mem_symVector_put (t : Table ν φ ε χ) (name : ν) (kind : Kind φ ε) (used : Bool) (other : ν)
    (h : ∀ n, n ∈ t.symVector ↔ t.kindOf n ≠ none) :
    other ∈ (t.put name kind used).symVector ↔ other = name ∨ other ∈ t.symVector := by
  simp only [Table.put]
  split
  case isTrue hsome =>
    have hmem : name ∈ t.symVector :=
      (h name).mpr (by simpa [Table.kindOf, Option.isSome_iff_ne_none] using hsome)
    exact ⟨.inr, fun ho => ho.elim (fun he => he ▸ hmem) id⟩
  case isFalse => simp [or_comm]

lemma grows_put (hev : Evolves (t.kindOf name) (some kind)) (hused : t.used name → used = true)
    (hstrong : ∀ type file definition, t.kindOf name = some (.defined type false file definition) →
      t.errors = [] → some kind = t.kindOf name) : Grows t (t.put name kind used) where
  kind other := by
    rw [kindOf_put]
    split
    case isTrue he => exact he ▸ hev
    case isFalse => exact .same _
  strong other type file definition hk he := by
    rw [kindOf_put]
    split
    case isTrue ho =>
      subst ho
      exact hstrong type file definition hk he
    case isFalse => rfl
  used other hu := by
    rw [used_put]
    split
    case isTrue ho => exact hused (ho ▸ hu)
    case isFalse => exact hu
  allowed _ h := h
  errors h := h
  seen _ h := h

/-- A symbol is put that may come of the one that was there. -/
lemma Inv.put (h : Inv I objects listed parsing t) (hev : Evolves (t.kindOf name) (some kind))
    (hused : t.used name → used = true)
    (hstrong : ∀ type file definition, t.kindOf name = some (.defined type false file definition) →
      t.errors = [] → some kind = t.kindOf name)
    (hfrom : kind.From I (parsing ++ t.objectFiles) name)
    (hsets : used = true → I.UsedFrom (parsing ++ t.objectFiles) name)
    (hlazy : ∀ m, kind = .lazyKind m → (name, m) ∈ I.index)
    (hclosed : ∀ type weak file, kind = .undefined type weak file →
      ∀ m, (name, m) ∈ listed → m ∈ t.seen) :
    Inv I objects listed parsing (t.put name kind used) := by
  have hg : Grows t (t.put name kind used) := grows_put hev hused hstrong
  constructor
  case symVector =>
    intro other
    rw [mem_symVector_put t name kind used other h.symVector, kindOf_put, h.symVector]
    split <;> simp_all
  case seen_nodup => exact h.seen_nodup
  case seen_needed => exact h.seen_needed
  case counted => exact h.counted
  case origin => exact h.origin
  case listed_sub => exact h.listed_sub
  case known => exact fun other m hm => (hg.kind other).ne_none (h.known other m hm)
  case lazy_listed =>
    intro other m hk
    rw [kindOf_put] at hk
    split at hk
    case isTrue ho => exact ho ▸ hlazy m (Option.some.inj hk)
    case isFalse => exact h.lazy_listed other m hk
  case closed =>
    intro other type weak file hk m hm
    rw [kindOf_put] at hk
    split at hk
    case isTrue ho => exact hclosed type weak file (Option.some.inj hk) m (ho ▸ hm)
    case isFalse => exact h.closed other type weak file hk m hm
  case from_files =>
    intro other k hk
    rw [kindOf_put] at hk
    split at hk
    case isTrue ho =>
      cases hk
      exact ho ▸ hfrom
    case isFalse => exact h.from_files other k hk
  case used_from =>
    intro other hu
    rw [used_put] at hu
    split at hu
    case isTrue ho => exact ho ▸ hsets hu
    case isFalse => exact h.used_from other hu
  case allowed_from => exact h.allowed_from
  case comdats_taken => exact h.comdats_taken
  case comdats_length => exact h.comdats_length
  case comdats_lost => exact h.comdats_lost
  case settled => exact fun p hp sym hsym => (h.settled p hp sym hsym).mono hg

/-- The symbols of the linker have different names. -/
lemma addSynthetics_spec : ∀ (synthetics : List (Synthetic ν ε)) (t : Table ν φ ε χ),
    synthetics ⊆ I.synthetics → (synthetics.map (·.name)).Nodup →
    (∀ s ∈ synthetics, t.find s.name = none) → Inv I objects listed parsing t →
      Inv I objects listed parsing (synthetics.foldl
        (fun t s => addSynthetic s.name s.type s.weak s.definition t) t) := by
  intro synthetics
  induction synthetics with
  | nil => exact fun t _ _ _ h => h
  | cons s synthetics ih =>
    intro t hsub hnodup hfresh h
    obtain ⟨hs, hrest⟩ := List.cons_subset.mp hsub
    obtain ⟨hnot, hnodup'⟩ := List.nodup_cons.mp hnodup
    have hnone : t.find s.name = none := hfresh s (List.mem_cons_self ..)
    have hk : t.kindOf s.name = none := by simp [Table.kindOf, hnone]
    refine ih _ hrest hnodup' (fun s' hs' => ?_) (h.put (hk ▸ .fresh _) ?_ ?_ ?_ nofun nofun nofun)
    · have hne : s'.name ≠ s.name := fun he => hnot (List.mem_map.mpr ⟨s', hs', he⟩)
      have hold : t.find s'.name = none := hfresh s' (List.mem_cons_of_mem _ hs')
      simpa [addSynthetic, Table.put, Function.update_apply, hne] using hold
    · simp [Table.used, hnone]
    · simp [hk]
    · exact .inl ⟨rfl, hs⟩

end put

/-! ## Where kinds come from -/

lemma Kind.From.mono {files files' : List (LoadedFile ν φ ε χ)} (h : kind.From I files name)
    (hsub : files ⊆ files') : kind.From I files' name := by
  cases kind with
  | defined type weak file definition =>
    exact h.imp id fun ⟨p, hp, hfile⟩ => ⟨p, hsub hp, hfile⟩
  | undefined type weak file => exact h.imp id fun ⟨p, hp, hfile⟩ => ⟨p, hsub hp, hfile⟩
  | lazyKind m => trivial

lemma Input.UsedFrom.mono {files files' : List (LoadedFile ν φ ε χ)} (h : I.UsedFrom files name)
    (hsub : files ⊆ files') : I.UsedFrom files' name :=
  h.imp id fun ⟨p, hp, hsym⟩ => ⟨p, hsub hp, hsym⟩

lemma Input.Wanted.mono {files files' : List (LoadedFile ν φ ε χ)} (h : I.Wanted files name)
    (hsub : files ⊆ files') : I.Wanted files' name := by
  induction h with
  | forced h => exact .forced h
  | object hp hobject hsym hr => exact .object (hsub hp) hobject hsym hr
  | member hp hc _ hlisted hsym hr ih => exact .member (hsub hp) hc ih hlisted hsym hr

lemma Input.Needed.mono {files files' : List (LoadedFile ν φ ε χ)} {m : φ} (h : I.Needed files m)
    (hsub : files ⊆ files') : I.Needed files' m :=
  let ⟨name, hwanted, hlisted⟩ := h
  ⟨name, hwanted.mono hsub, hlisted⟩

lemma Input.Origin.mono {files files' : List (LoadedFile ν φ ε χ)} {p : LoadedFile ν φ ε χ}
    (h : I.Origin files p) (hsub : files ⊆ files') : I.Origin files' p :=
  h.imp id fun ⟨hcontent, hneeded⟩ => ⟨hcontent, hneeded.mono hsub⟩

/-- What a file looks up is wanted. -/
lemma Inv.refers_wanted (h : Inv I objects listed parsing t) {p : LoadedFile ν φ ε χ}
    (hp : p ∈ parsing ++ t.objectFiles) {sym : WasmSymbol ν ε} (hsym : sym ∈ p.obj.symbols)
    (hr : p.Refers sym) : I.Wanted (parsing ++ t.objectFiles) sym.name := by
  cases h.origin p hp with
  | inl hobject => exact .object hp hobject hsym hr
  | inr hmember =>
    obtain ⟨hcontent, name, hwanted, hlisted⟩ := hmember
    exact .member hp hcontent hwanted hlisted hsym hr

lemma Inv.undefined_wanted (h : Inv I objects listed parsing t) {type weak file}
    (hk : t.kindOf name = some (.undefined type weak file)) :
    I.Wanted (parsing ++ t.objectFiles) name := by
  rcases h.from_files _ _ hk with ⟨-, hforced, -⟩ | ⟨p, hp, -, sym, hsym, hr, rfl, -⟩
  · exact .forced hforced
  · exact h.refers_wanted hp hsym hr

lemma LoadedFile.Defines.not_refers {p : LoadedFile ν φ ε χ} {sym : WasmSymbol ν ε} {definition : ε}
    (h : p.Defines sym definition) : ¬ p.Refers sym := by
  rintro (hnone | hexcluded)
  · simp [h.1] at hnone
  · simp [h.2.1] at hexcluded

lemma Input.Budget.mono [DecidableEq φ] {k : ℕ} (hb : I.Budget k t) (h : t.seen ⊆ t'.seen) :
    I.Budget k t' := by
  refine le_trans (List.countP_mono_left fun m _ hm => ?_) hb
  simp only [decide_eq_true_eq] at hm ⊢
  exact fun hseen => hm (h hseen)

/-- One member less is left when a needed one is marked. -/
lemma Input.Budget.mark [DecidableEq φ] {k : ℕ} {m : φ} (hb : I.Budget (k + 1) t)
    {files : List (LoadedFile ν φ ε χ)} (hneeded : I.Needed files m) (hm : m ∉ t.seen) : I.Budget k { t with seen := t.seen ++ [m] } := by
  obtain ⟨name, -, hlisted⟩ := hneeded
  have hmem : m ∈ I.index.map (·.2) := List.mem_map_of_mem hlisted
  have hlt : (I.index.map (·.2)).countP (· ∉ t.seen ++ [m]) <
      (I.index.map (·.2)).countP (· ∉ t.seen) := by
    generalize I.index.map (·.2) = members at hmem
    induction members with
    | nil => simp at hmem
    | cons head members ih =>
      have hle : members.countP (· ∉ t.seen ++ [m]) ≤ members.countP (· ∉ t.seen) :=
        List.countP_mono_left fun x _ hx => by
          simp only [List.mem_append, decide_eq_true_eq] at hx ⊢
          exact fun hseen => hx (.inl hseen)
      rcases List.mem_cons.mp hmem with rfl | hrest
      · simp only [List.countP_cons, List.mem_append, List.mem_singleton, hm]
        simpa using Nat.lt_succ_of_le hle
      · rw [List.countP_cons, List.countP_cons]
        refine Nat.add_lt_add_of_lt_of_le (ih hrest) ?_
        split <;> split <;> simp_all
  exact Nat.le_of_lt_succ (hlt.trans_le hb)

lemma Input.budget [DecidableEq φ] (I : Input ν φ ε χ) (t : Table ν φ ε χ) :
    I.Budget I.index.length t := by
  exact List.countP_le_length.trans_eq (List.length_map _)

/-! ## One symbol of a file -/

section symbols

variable [DecidableEq ν] {p : LoadedFile ν φ ε χ} {sym : WasmSymbol ν ε} {definition : ε}

/-- A definition of a file is put, where no strong one is replaced without an error. -/
lemma Inv.define (hg : Grows t₀ t) (h : Inv I objects listed parsing t) (hp : p ∈ parsing)
    (hsym : sym ∈ p.obj.symbols) (hd : p.Defines sym definition)
    (hdup : ∀ type file definition',
      t.kindOf sym.name = some (.defined type false file definition') → t.errors ≠ [])
    (t' : Table ν φ ε χ)
    (ht : t.put sym.name (.defined sym.type sym.isWeak p.file definition) true = t') :
    Inv I objects listed parsing t' ∧ Grows t₀ t' ∧ t'.HasDefinition p sym definition := by
  subst ht
  have hev : Evolves (t.kindOf sym.name)
      (some (.defined sym.type sym.isWeak (some p.file) definition)) := by
    cases t.kindOf sym.name with
    | none => exact .fresh _
    | some kind => exact .define ..
  have hmem : p ∈ parsing ++ t.objectFiles := List.mem_append_left _ hp
  refine ⟨h.put hev (fun _ => rfl) ?_ ?_ ?_ nofun nofun,
    hg.trans (grows_put hev (fun _ => rfl) ?_), ?_⟩
  · exact fun type file definition' hk he => absurd he (hdup _ _ _ hk)
  · exact .inr ⟨p, hmem, rfl, sym, hsym, hd, rfl, rfl, rfl⟩
  · exact fun _ => .inr ⟨p, hmem, sym, hsym, rfl, .inl ⟨_, hd⟩⟩
  · exact fun type file definition' hk he => absurd he (hdup _ _ _ hk)
  · exact {
      defined := ⟨_, _, _, _, by rw [kindOf_put, if_pos rfl]⟩
      used := by rw [used_put, if_pos rfl]
      strong := fun hweak _ => by rw [kindOf_put, if_pos rfl, hweak] }

/-- A weak definition leaves the definition that is there. -/
lemma Inv.define_weak (hg : Grows t₀ t) (h : Inv I objects listed parsing t) (hp : p ∈ parsing)
    (hsym : sym ∈ p.obj.symbols) (hd : p.Defines sym definition) (hweak : sym.isWeak = true)
    {type weak file definition'}
    (hk : t.kindOf sym.name = some (.defined type weak file definition')) (t' : Table ν φ ε χ)
    (ht : t.put sym.name (.defined type weak file definition') true = t') :
    Inv I objects listed parsing t' ∧ Grows t₀ t' ∧ t'.HasDefinition p sym definition := by
  subst ht
  have hev : Evolves (t.kindOf sym.name) (some (.defined type weak file definition')) :=
    hk ▸ .same _
  have hmem : p ∈ parsing ++ t.objectFiles := List.mem_append_left _ hp
  refine ⟨h.put hev (fun _ => rfl) (fun _ _ _ _ _ => hk.symm) (h.from_files _ _ hk) ?_ nofun nofun,
    hg.trans (grows_put hev (fun _ => rfl) fun _ _ _ _ _ => hk.symm), ?_⟩
  · exact fun _ => .inr ⟨p, hmem, sym, hsym, rfl, .inl ⟨_, hd⟩⟩
  · exact {
      defined := ⟨_, _, _, _, by rw [kindOf_put, if_pos rfl]⟩
      used := by rw [used_put, if_pos rfl]
      strong := fun hstrong => by simp [hweak] at hstrong }

lemma addDefined_spec (check : SymbolType → Option φ → List (Message ν φ))
    (h : Inv I objects listed parsing t) (hp : p ∈ parsing) (hsym : sym ∈ p.obj.symbols)
    (hd : p.Defines sym definition) :
    Inv I objects listed parsing
        (addDefined check sym.name sym.type sym.isWeak p.file definition t) ∧
      Grows t (addDefined check sym.name sym.type sym.isWeak p.file definition t) ∧
      (addDefined check sym.name sym.type sym.isWeak p.file definition t).HasDefinition p sym
        definition := by
  generalize ht : addDefined check sym.name sym.type sym.isWeak p.file definition t = t'
  rw [addDefined] at ht
  cases hs : t.find sym.name with
  | none =>
    have hk : t.kindOf sym.name = none := by simp [Table.kindOf, hs]
    rw [hs] at ht
    exact h.define (.refl t) hp hsym hd (by simp [hk]) t' ht
  | some s =>
    obtain ⟨kind, wasUsed⟩ := s
    have hk : t.kindOf sym.name = some kind := by simp [Table.kindOf, hs]
    rw [hs] at ht
    cases kind with
    | lazyKind m => exact h.define (.refl t) hp hsym hd (by simp [hk]) t' ht
    | undefined old oldWeak oldFile =>
      exact (h.report _).define (grows_report t _) hp hsym hd
        (fun _ _ _ hk' => by cases hk.symm.trans hk') t' ht
    | defined old oldWeak oldFile definition' =>
      simp only [Kind.declared, shouldReplace] at ht
      cases hweak : sym.isWeak with
      | true =>
        rw [hweak] at ht
        exact (h.report _).define_weak (grows_report t _) hp hsym hd hweak hk t' ht
      | false =>
        rw [hweak] at ht
        cases oldWeak with
        | true =>
          exact (h.report _).define (grows_report t _) hp hsym hd
            (fun _ _ _ hk' => by cases hk.symm.trans hk') t' (by rw [hweak]; exact ht)
        | false =>
          -- Both are strong: the new one is kept, with an error.
          exact (h.report _).define (grows_report t _) hp hsym hd
            (fun _ _ _ _ => errors_report_duplicate t _ oldFile (some p.file)) t'
            (by rw [hweak]; exact ht)

/-- The three functions for definitions are `addDefined` with their own checks. -/
lemma createDefined_spec {entry : ν} (h : Inv I objects listed parsing t) (hp : p ∈ parsing)
    (hsym : sym ∈ p.obj.symbols) (ht : createDefined entry p.file p.usedComdats sym t = some t') :
    Inv I objects listed parsing t' ∧ Grows t t' ∧ ¬ p.Refers sym ∧
      ∀ definition, p.Defines sym definition → t'.HasDefinition p sym definition := by
  rw [createDefined] at ht
  cases hdefinition : sym.definition with
  | none => simp [hdefinition] at ht
  | some definition =>
    rw [hdefinition] at ht
    have hincluded : isExcludedByComdat p.usedComdats sym = false := by
      cases hexcluded : isExcludedByComdat p.usedComdats sym <;> simp_all
    have hnot : ¬ p.Refers sym := by simp [LoadedFile.Refers, hdefinition, hincluded]
    by_cases hlocal : sym.binding = .bindingLocal
    case pos =>
      -- A local symbol leaves the table as it is.
      simp only [hincluded, hlocal, Bool.false_eq_true, if_false, if_true, Option.some.injEq] at ht
      subst ht
      exact ⟨h, .refl t, hnot, fun _ hd => absurd hlocal hd.2.2⟩
    case neg =>
      have hd : p.Defines sym definition := ⟨hdefinition, hincluded, hlocal⟩
      have honly : ∀ definition', p.Defines sym definition' → definition' = definition :=
        fun definition' hd' => Option.some.inj (hd'.1.symm.trans hdefinition)
      simp only [hincluded, hlocal, Bool.false_eq_true, if_false, Option.some.injEq] at ht
      have hspec : ∀ check : SymbolType → Option φ → List (Message ν φ),
          addDefined check sym.name sym.type sym.isWeak p.file definition t = t' →
          Inv I objects listed parsing t' ∧ Grows t t' ∧ ¬ p.Refers sym ∧
            ∀ definition, p.Defines sym definition → t'.HasDefinition p sym definition := by
        intro check hadd
        obtain ⟨hinv, hgrows, hdef⟩ := addDefined_spec check h hp hsym hd
        rw [hadd] at hinv hgrows hdef
        exact ⟨hinv, hgrows, hnot, fun definition' hd' => honly definition' hd' ▸ hdef⟩
      cases htype : sym.type <;> rw [htype] at ht hspec <;> exact hspec _ ht

variable [DecidableEq φ] {k : ℕ} {load : φ → Table ν φ ε χ → Table ν φ ε χ}

/-- A wanted name is looked up; when its symbol is lazy, the member is parsed. -/
lemma addUndefined_spec (check : SymbolType → Option φ → List (Message ν φ)) (used : Bool)
    {type : SymbolType} {weak : Bool} {file : Option φ}
    (hload : Loads I objects listed k load) (h : Inv I objects listed parsing t)
    (hb : I.Budget k t) (hwanted : I.Wanted (parsing ++ t.objectFiles) name)
    (hfrom : (Kind.undefined type weak file : Kind φ ε).From I (parsing ++ t.objectFiles) name)
    (hsets : used = true → I.UsedFrom (parsing ++ t.objectFiles) name) :
    Inv I objects listed parsing (addUndefined load check used name type weak file t) ∧
      Grows t (addUndefined load check used name type weak file t) ∧
      (addUndefined load check used name type weak file t).HasLookup name (used = true) := by
  generalize ht : addUndefined load check used name type weak file t = t'
  rw [addUndefined] at ht
  cases hs : t.find name with
  | none =>
    have hk : t.kindOf name = none := by simp [Table.kindOf, hs]
    have hunused : ¬ t.used name := by simp [Table.used, hs]
    rw [hs] at ht
    subst ht
    have hev : Evolves (t.kindOf name) (some (.undefined type weak file)) := hk ▸ .fresh _
    have hclosed : ∀ m, (name, m) ∈ listed → m ∈ t.seen :=
      fun m hm => absurd hk (h.known name m hm)
    refine ⟨h.put hev (fun hu => absurd hu hunused) (by simp [hk]) hfrom hsets nofun
      fun _ _ _ _ => hclosed, grows_put hev (fun hu => absurd hu hunused) (by simp [hk]), ?_⟩
    exact {
      known := by simp [kindOf_put]
      fetched := by simp [kindOf_put]
      used := fun hu => by rwa [used_put, if_pos rfl] }
  | some s =>
    obtain ⟨kind, wasUsed⟩ := s
    have hk : t.kindOf name = some kind := by simp [Table.kindOf, hs]
    rw [hs] at ht
    -- The symbol stays what it is and may become used.
    have hev : Evolves (t.kindOf name) (some kind) := hk ▸ .same _
    have hused : t.used name → (wasUsed || used) = true := by
      rintro ⟨s, hs', hu⟩
      cases hs.symm.trans hs'
      exact (Bool.or_eq_true ..).mpr (.inl hu)
    have hput : Inv I objects listed parsing (t.put name kind (wasUsed || used)) :=
      h.put hev hused (fun _ _ _ _ _ => hk.symm) (h.from_files _ _ hk)
        (fun hu => by
          cases wasUsed with
          | true => exact h.used_from name ⟨_, hs, rfl⟩
          | false => exact hsets (by simpa using hu))
        (fun m hm => h.lazy_listed name m (hm ▸ hk))
        (fun _ _ _ hu => h.closed name _ _ _ (hu ▸ hk))
    have hgrows : Grows t (t.put name kind (wasUsed || used)) :=
      grows_put hev hused fun _ _ _ _ _ => hk.symm
    have hkind : (t.put name kind (wasUsed || used)).kindOf name = some kind := by
      rw [kindOf_put, if_pos rfl]
    have hsetsUsed : used = true → (t.put name kind (wasUsed || used)).used name := fun hu => by
      simp [used_put, hu]
    cases kind with
    | lazyKind m =>
      subst ht
      obtain ⟨hinv, hloaded, hm⟩ := hload parsing _ m hput (hb.mono hgrows.seen)
        ⟨name, hwanted, h.lazy_listed name m hk⟩
      refine ⟨hinv, hgrows.trans hloaded, ?_⟩
      exact {
        known := (hloaded.kind name).ne_none (by simp [hkind])
        fetched := fun m' hm' => by
          have hold := (hm' ▸ hloaded.kind name).of_lazy (by simp [hkind])
          cases hkind.symm.trans hold
          exact hm
        used := fun hu => hloaded.used name (hsetsUsed hu) }
    | undefined old oldWeak oldFile =>
      subst ht
      exact ⟨hput, hgrows, ⟨by simp [hkind], by simp [hkind], hsetsUsed⟩⟩
    | defined old oldWeak oldFile definition =>
      subst ht
      refine ⟨hput.report _, hgrows.trans (grows_report _ _), ?_⟩
      exact Table.HasLookup.mono ⟨by simp [hkind], by simp [hkind], hsetsUsed⟩ (grows_report _ _)

/-- The three functions for references are `addUndefined` with their own checks. -/
lemma createUndefined_spec (hload : Loads I objects listed k load)
    (h : Inv I objects listed parsing t) (hb : I.Budget k t) (hp : p ∈ parsing)
    (hsym : sym ∈ p.obj.symbols) (hr : p.Refers sym) :
    Inv I objects listed parsing (createUndefined load p.file sym t) ∧
      Grows t (createUndefined load p.file sym t) ∧
      (createUndefined load p.file sym t).HasLookup sym.name (sym.type ≠ .data) := by
  have hmem : p ∈ parsing ++ t.objectFiles := List.mem_append_left _ hp
  have hwanted := h.refers_wanted hmem hsym hr
  have hfrom : (Kind.undefined sym.type sym.isWeak (some p.file) : Kind φ ε).From I
      (parsing ++ t.objectFiles) sym.name :=
    .inr ⟨p, hmem, rfl, sym, hsym, hr, rfl, rfl, rfl⟩
  have hsets : sym.type ≠ .data → I.UsedFrom (parsing ++ t.objectFiles) sym.name :=
    fun ht => .inr ⟨p, hmem, sym, hsym, rfl, .inr ⟨hr, ht⟩⟩
  rw [createUndefined]
  cases htype : sym.type with
  | function sig =>
    rw [htype] at hfrom hsets
    obtain ⟨hinv, hgrows, hlookup⟩ :=
      addUndefined_spec (checkFunctionType sym.name sig (some p.file)) true hload h hb hwanted
        hfrom fun _ => hsets nofun
    exact ⟨hinv, hgrows, ⟨hlookup.known, hlookup.fetched, fun _ => hlookup.used rfl⟩⟩
  | data =>
    rw [htype] at hfrom
    obtain ⟨hinv, hgrows, hlookup⟩ :=
      addUndefined_spec (checkDataType sym.name (some p.file)) false hload h hb
        hwanted hfrom nofun
    exact ⟨hinv, hgrows, ⟨hlookup.known, hlookup.fetched, fun hne => absurd rfl hne⟩⟩
  | global type =>
    rw [htype] at hfrom hsets
    obtain ⟨hinv, hgrows, hlookup⟩ :=
      addUndefined_spec (checkGlobalType sym.name type (some p.file)) true hload h hb hwanted
        hfrom fun _ => hsets nofun
    exact ⟨hinv, hgrows, ⟨hlookup.known, hlookup.fetched, fun _ => hlookup.used rfl⟩⟩

lemma addSymbol_spec (hload : Loads I objects listed k load) (h : Inv I objects listed parsing t)
    (hb : I.Budget k t) (hp : p ∈ parsing) (hsym : sym ∈ p.obj.symbols) :
    Inv I objects listed parsing (addSymbol I.entry load p t sym) ∧
      Grows t (addSymbol I.entry load p t sym) ∧
      Settled (addSymbol I.entry load p t sym) p sym := by
  obtain ⟨t₁, ht₁, hinv₁, hgrows₁, hallowed⟩ : ∃ t₁, (if sym.name ∈ p.obj.allowedImports then
      { t with allowed := t.allowed ++ [sym.name] } else t) = t₁ ∧
      Inv I objects listed parsing t₁ ∧ Grows t t₁ ∧
      (sym.name ∈ p.obj.allowedImports → sym.name ∈ t₁.allowed) := by
    by_cases ha : sym.name ∈ p.obj.allowedImports
    case neg => exact ⟨t, if_neg ha, h, .refl t, fun ha' => absurd ha' ha⟩
    case pos =>
      have hgrows : Grows t { t with allowed := t.allowed ++ [sym.name] } :=
        { Grows.refl t with allowed := List.subset_append_left _ _ }
      refine ⟨_, if_pos ha, ?_, hgrows, fun _ => by simp⟩
      exact { h with
        allowed_from := fun name hn => by
          rcases List.mem_append.mp hn with hold | hnew
          · exact h.allowed_from name hold
          · rw [List.mem_singleton.mp hnew]
            exact ⟨p, List.mem_append_left _ hp, List.mem_map_of_mem hsym, ha⟩
        settled := fun q hq s hs => (h.settled q hq s hs).mono hgrows }
  rw [addSymbol, ht₁]
  cases hdefined : createDefined I.entry p.file p.usedComdats sym t₁ with
  | some t' =>
    obtain ⟨hinv, hgrows, hnot, hdef⟩ := createDefined_spec hinv₁ hp hsym hdefined
    exact ⟨hinv, hgrows₁.trans hgrows,
      ⟨fun ha => hgrows.allowed (hallowed ha), hdef, fun hr => absurd hr hnot⟩⟩
  | none =>
    have hr : p.Refers sym := by
      revert hdefined
      rw [createDefined, LoadedFile.Refers]
      cases sym.definition with
      | none => simp
      | some definition =>
        cases isExcludedByComdat p.usedComdats sym <;> simp
        split <;> simp
    obtain ⟨hinv, hgrows, hlookup⟩ :=
      createUndefined_spec hload hinv₁ (hb.mono hgrows₁.seen) hp hsym hr
    exact ⟨hinv, hgrows₁.trans hgrows, ⟨fun ha => hgrows.allowed (hallowed ha),
      fun _ hd => absurd hr hd.not_refers, fun _ => hlookup⟩⟩

/-- All symbols of a file, or as many as have been read. -/
lemma addSymbols_spec (hload : Loads I objects listed k load) (hp : p ∈ parsing) :
    ∀ (syms : List (WasmSymbol ν ε)) (t : Table ν φ ε χ), syms ⊆ p.obj.symbols →
      Inv I objects listed parsing t → I.Budget k t →
      Inv I objects listed parsing (syms.foldl (addSymbol I.entry load p) t) ∧
        Grows t (syms.foldl (addSymbol I.entry load p) t) ∧
        ∀ sym ∈ syms, Settled (syms.foldl (addSymbol I.entry load p) t) p sym := by
  intro syms
  induction syms with
  | nil => exact fun t _ h _ => ⟨h, .refl t, by simp⟩
  | cons sym syms ih =>
    intro t hsub h hb
    obtain ⟨hsym, hsyms⟩ := List.cons_subset.mp hsub
    obtain ⟨hinv₁, hgrows₁, hsettled⟩ := addSymbol_spec hload h hb hp hsym
    obtain ⟨hinv, hgrows, hrest⟩ := ih _ hsyms hinv₁ (hb.mono hgrows₁.seen)
    refine ⟨hinv, hgrows₁.trans hgrows, fun s hs => ?_⟩
    rcases List.mem_cons.mp hs with rfl | hs
    · exact hsettled.mono hgrows
    · exact hrest s hs

lemma addLazy_spec (hload : Loads I objects listed k load) (h : Inv I objects listed parsing t)
    (hb : I.Budget k t) {entry : ν × φ} (hindex : entry ∈ I.index) :
    Inv I objects (listed ++ [entry]) parsing (addLazy load t entry) ∧
      Grows t (addLazy load t entry) := by
  obtain ⟨name, m⟩ := entry
  rw [addLazy]
  cases hs : t.find name with
  | none =>
    have hk : t.kindOf name = none := by simp [Table.kindOf, hs]
    have hunused : ¬ t.used name := by simp [Table.used, hs]
    have hev : Evolves (t.kindOf name) (some (.lazyKind m)) := hk ▸ .fresh _
    have hput : Inv I objects listed parsing (t.put name (.lazyKind m) false) :=
      h.put hev (fun hu => absurd hu hunused) (by simp [hk]) trivial nofun
        (fun m' hm' => by cases hm'; exact hindex) nofun
    refine ⟨hput.list hindex ?_ ?_, grows_put hev (fun hu => absurd hu hunused) (by simp [hk])⟩
    · simp [kindOf_put]
    · simp [kindOf_put]
  | some s =>
    obtain ⟨kind, used⟩ := s
    have hk : t.kindOf name = some kind := by simp [Table.kindOf, hs]
    cases kind with
    | undefined type weak file =>
      -- The symbol was missing, so that the member is parsed at once.
      obtain ⟨hinv, hgrows, hm⟩ := hload parsing t m h hb ⟨name, h.undefined_wanted hk, hindex⟩
      exact ⟨hinv.list hindex ((hgrows.kind name).ne_none (by simp [hk])) fun _ _ _ _ => hm, hgrows⟩
    | defined type weak file definition =>
      exact ⟨h.list hindex (by simp [hk]) (by simp [hk]), .refl t⟩
    | lazyKind m' => exact ⟨h.list hindex (by simp [hk]) (by simp [hk]), .refl t⟩

end symbols

/-! ## One file -/

/-- The file that was begun last is finished. -/
lemma Inv.finish {p : LoadedFile ν φ ε χ} (h : Inv I objects listed (p :: parsing) t)
    (hsettled : ∀ sym ∈ p.obj.symbols, Settled t p sym) :
    Inv I objects listed parsing { t with objectFiles := t.objectFiles ++ [p] } ∧
      Grows t { t with objectFiles := t.objectFiles ++ [p] } := by
  have hgrows : Grows t { t with objectFiles := t.objectFiles ++ [p] } := { Grows.refl t with }
  have hperm : (parsing ++ (t.objectFiles ++ [p])).Perm (p :: parsing ++ t.objectFiles) := by
    rw [← List.append_assoc]
    exact List.perm_append_singleton p _
  have hfiles : p :: parsing ++ t.objectFiles ⊆ parsing ++ (t.objectFiles ++ [p]) :=
    hperm.symm.subset
  refine ⟨?_, hgrows⟩
  exact { h with
    counted := (hperm.map _).trans h.counted
    seen_needed := fun m hm => (h.seen_needed m hm).mono hfiles
    origin := fun q hq => (h.origin q (hperm.subset hq)).mono hfiles
    from_files := fun name kind hk => (h.from_files name kind hk).mono hfiles
    used_from := fun name hu => (h.used_from name hu).mono hfiles
    allowed_from := fun name hn =>
      let ⟨q, hq, hn⟩ := h.allowed_from name hn
      ⟨q, hfiles hq, hn⟩
    comdats_taken := fun name hn =>
      let ⟨q, hq, hn⟩ := h.comdats_taken name hn
      ⟨q, hfiles hq, hn⟩
    comdats_length := fun q hq => h.comdats_length q (hperm.subset hq)
    comdats_lost := fun q hq => h.comdats_lost q (hperm.subset hq)
    settled := fun q hq sym hsym => by
      rcases List.mem_append.mp hq with hold | hnew
      · exact (h.settled q hold sym hsym).mono hgrows
      · cases List.mem_singleton.mp hnew
        exact (hsettled sym hsym).mono hgrows }

section comdats

variable [DecidableEq χ]

lemma length_addComdats (comdats names : List χ) :
    (addComdats comdats names).1.length = names.length := by
  induction names generalizing comdats with
  | nil => rfl
  | cons name names ih => simp [addComdats, ih]

lemma subset_addComdats (comdats names : List χ) : comdats ⊆ (addComdats comdats names).2 := by
  induction names generalizing comdats with
  | nil => simp [addComdats]
  | cons name names ih =>
    refine List.Subset.trans ?_ (ih _)
    split <;> simp

/-- A comdat was there before, or the file has taken it. -/
lemma mem_addComdats {comdats names : List χ} {name : χ}
    (h : name ∈ (addComdats comdats names).2) :
    name ∈ comdats ∨ ∃ i : ℕ, names[i]? = some name ∧
      (addComdats comdats names).1[i]? = some true := by
  induction names generalizing comdats with
  | nil => exact .inl h
  | cons head names ih =>
    rcases ih h with hold | ⟨i, hi, htaken⟩
    · by_cases hhead : head ∈ comdats
      · exact .inl (by simpa [hhead] using hold)
      · simp only [hhead, not_false_eq_true, if_true, List.mem_append, List.mem_singleton] at hold
        rcases hold with hold | rfl
        · exact .inl hold
        · exact .inr ⟨0, by simp, by simp [addComdats, hhead]⟩
    · exact .inr ⟨i + 1, by simpa using hi, by simpa [addComdats] using htaken⟩

/-- A comdat that the file did not take is there. -/
lemma lost_addComdats {comdats names : List χ} {name : χ} {i : ℕ}
    (h : (addComdats comdats names).1[i]? = some false) (hi : names[i]? = some name) :
    name ∈ (addComdats comdats names).2 := by
  induction names generalizing comdats i with
  | nil => simp at hi
  | cons head names ih =>
    cases i with
    | zero =>
      simp only [List.getElem?_cons_zero, Option.some.injEq] at hi
      subst hi
      have hold : head ∈ comdats := by simpa [addComdats] using h
      exact subset_addComdats _ (head :: names) hold
    | succ i => exact ih (by simpa [addComdats] using h) (by simpa using hi)

variable {objects' : List φ} {seen' : List φ} {file : φ} {obj : ObjFile ν ε χ}

/-- The file that is about to be parsed, with the comdats it takes. -/
def Table.parse (t : Table ν φ ε χ) (file : φ) (obj : ObjFile ν ε χ) : LoadedFile ν φ ε χ :=
  ⟨file, obj, (addComdats t.comdats obj.comdats).1⟩

/-- A member may be marked, and a file is begun. -/
lemma Inv.begin (h : Inv I objects listed parsing t) (hnodup : seen'.Nodup)
    (hsub : t.seen ⊆ seen') (hneeded : ∀ m ∈ seen', I.Needed (parsing ++ t.objectFiles) m)
    (hcounted : (objects' ++ seen'.filter fun m => (I.content m).isSome).Perm
      (file :: (objects ++ t.seen.filter fun m => (I.content m).isSome)))
    (horigin : I.Origin (parsing ++ t.objectFiles) (t.parse file obj)) :
    Inv I objects' listed (t.parse file obj :: parsing)
        { t with seen := seen', comdats := (addComdats t.comdats obj.comdats).2 } ∧
      Grows { t with seen := seen' }
        { t with seen := seen', comdats := (addComdats t.comdats obj.comdats).2 } := by
  have hgrows : Grows { t with seen := seen' }
      { t with seen := seen', comdats := (addComdats t.comdats obj.comdats).2 } :=
    { Grows.refl { t with seen := seen' } with }
  have hfiles : parsing ++ t.objectFiles ⊆ t.parse file obj :: parsing ++ t.objectFiles :=
    List.subset_cons_self _ _
  refine ⟨?_, hgrows⟩
  exact { h with
    seen_nodup := hnodup
    seen_needed := fun m hm => (hneeded m hm).mono hfiles
    counted := (h.counted.cons file).trans hcounted.symm
    origin := List.forall_mem_cons.mpr
      ⟨horigin.mono hfiles, fun p hp => (h.origin p hp).mono hfiles⟩
    closed := fun name type weak file hk m hm => hsub (h.closed name type weak file hk m hm)
    from_files := fun name kind hk => (h.from_files name kind hk).mono hfiles
    used_from := fun name hu => (h.used_from name hu).mono hfiles
    allowed_from := fun name hn =>
      let ⟨p, hp, hn⟩ := h.allowed_from name hn
      ⟨p, hfiles hp, hn⟩
    comdats_taken := fun name hn => by
      rcases mem_addComdats hn with hold | ⟨i, hi, htaken⟩
      · obtain ⟨p, hp, ht⟩ := h.comdats_taken name hold
        exact ⟨p, hfiles hp, ht⟩
      · exact ⟨t.parse file obj, by simp, i, hi, htaken⟩
    comdats_length := List.forall_mem_cons.mpr ⟨length_addComdats .., h.comdats_length⟩
    comdats_lost := List.forall_mem_cons.mpr ⟨fun i name hlost hi => lost_addComdats hlost hi,
      fun p hp i name hlost hi => subset_addComdats _ _ (h.comdats_lost p hp i name hlost hi)⟩
    settled := fun p hp sym hsym =>
      (h.settled p hp sym hsym).mono ((Grows.mark hsub).trans hgrows) }

end comdats

section files

variable [DecidableEq ν] [DecidableEq φ] [DecidableEq χ] {k : ℕ} {objects' : List φ}
  {seen' : List φ} {file : φ} {obj : ObjFile ν ε χ} {load : φ → Table ν φ ε χ → Table ν φ ε χ}

lemma addFile_spec (hload : Loads I objects' listed k load) (h : Inv I objects listed parsing t)
    (hb : I.Budget k { t with seen := seen' }) (hnodup : seen'.Nodup) (hsub : t.seen ⊆ seen')
    (hneeded : ∀ m ∈ seen', I.Needed (parsing ++ t.objectFiles) m)
    (hcounted : (objects' ++ seen'.filter fun m => (I.content m).isSome).Perm
      (file :: (objects ++ t.seen.filter fun m => (I.content m).isSome)))
    (horigin : I.Origin (parsing ++ t.objectFiles) (t.parse file obj)) :
    Inv I objects' listed parsing (addFile I.entry load file obj { t with seen := seen' }) ∧
      Grows { t with seen := seen' } (addFile I.entry load file obj { t with seen := seen' }) := by
  obtain ⟨hbegin, hgrows₁⟩ := h.begin hnodup hsub hneeded hcounted horigin
  obtain ⟨hinv, hgrows₂, hsettled⟩ := addSymbols_spec hload (List.mem_cons_self ..)
    (t.parse file obj).obj.symbols _ (List.Subset.refl _) hbegin hb
  obtain ⟨hfinish, hgrows₃⟩ := hinv.finish hsettled
  exact ⟨hfinish, hgrows₁.trans (hgrows₂.trans hgrows₃)⟩

/-- The induction is on the fuel: a member is marked before the files that it needs are parsed. -/
theorem addMember_loads (k : ℕ) : Loads I objects listed k (addMember I.entry I.content k) := by
  induction k with
  | zero =>
    intro parsing t m h hb hneeded
    refine ⟨h, .refl t, ?_⟩
    obtain ⟨name, -, hlisted⟩ := hneeded
    have hnone := List.countP_eq_zero.mp (Nat.le_zero.mp hb) m (List.mem_map_of_mem hlisted)
    rw [addMember]
    simpa using hnone
  | succ k ih =>
    intro parsing t m h hb hneeded
    rw [addMember]
    by_cases hm : m ∈ t.seen
    case pos =>
      rw [if_pos hm]
      exact ⟨h, .refl t, hm⟩
    case neg =>
      rw [if_neg hm]
      have hb' : I.Budget k { t with seen := t.seen ++ [m] } := hb.mark hneeded hm
      have hnodup : (t.seen ++ [m]).Nodup := by
        rw [List.nodup_append_comm]
        exact List.nodup_cons.mpr ⟨hm, h.seen_nodup⟩
      have hsub : t.seen ⊆ t.seen ++ [m] := List.subset_append_left _ _
      have hmark : Grows t { t with seen := t.seen ++ [m] } := .mark hsub
      have hall : ∀ m' ∈ t.seen ++ [m], I.Needed (parsing ++ t.objectFiles) m' := by
        intro m' hm'
        rcases List.mem_append.mp hm' with hold | hnew
        · exact h.seen_needed m' hold
        · exact List.mem_singleton.mp hnew ▸ hneeded
      cases hcontent : I.content m with
      | none =>
        -- The member is no object file, which is an error, and counts as parsed.
        have hinv : Inv I objects listed parsing { t with seen := t.seen ++ [m] } :=
          { h with
            seen_nodup := hnodup
            seen_needed := hall
            counted := by simpa [List.filter_append, hcontent] using h.counted
            closed := fun name type weak file hk m hm =>
              hsub (h.closed name type weak file hk m hm)
            settled := fun p hp sym hsym => (h.settled p hp sym hsym).mono hmark }
        refine ⟨hinv.report _, hmark.trans (grows_report _ _), ?_⟩
        simp [Table.report]
      | some obj =>
        have hcounted : (objects ++ (t.seen ++ [m]).filter fun m => (I.content m).isSome).Perm
            (m :: (objects ++ t.seen.filter fun m => (I.content m).isSome)) := by
          rw [List.filter_append, ← List.append_assoc, List.filter_cons_of_pos (by simp [hcontent])]
          exact List.perm_append_singleton m _
        obtain ⟨hinv, hgrows⟩ := addFile_spec ih h hb' hnodup hsub hall
          hcounted (.inr ⟨hcontent, hneeded⟩)
        exact ⟨hinv, hmark.trans hgrows, hgrows.seen (by simp)⟩

end files

end UosioCdt.Link.Symtab
