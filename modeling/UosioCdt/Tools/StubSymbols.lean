import UosioCdt.Link.SymbolTable
import UosioCdt.Tools.CodegenTheorems

/-!
# Theorems: the symbols of dispatch stubs

The symbol of a stub is the name of its method and the unqualified name of its class, with an
underscore between them. All stubs are weak, so the linker keeps the first one of each symbol.
-/

namespace UosioCdt.Tools.Codegen

open Link (WasmSignature)
open Link.Symtab (Message Table addDefinedFunction)

/-! ## The stubs in the symbol table -/

/-- `void(unsigned long long, unsigned long long)` -/
def stubSignature : WasmSignature := ⟨[0x7E, 0x7E], 0x40⟩

section stubs

variable {μ φ : Type} (M : Methods μ) (file : μ → φ) {funcName : Str} {m m' : μ}

/-- The weak symbol of a stub, from the object file of the method. -/
def stubSymbol (m : μ) : Link.Symtab.Symbol φ μ :=
  ⟨.defined (.function (some stubSignature)) true (some (file m)) m, true⟩

/-- The linker reads the stubs of the object files one after another. -/
def linkStubs (entry funcName : Str) (stubs : List (Stub μ)) : Table Str φ μ Str :=
  stubs.foldl (fun t s => addDefinedFunction entry (stubName M funcName s.method)
    (some stubSignature) true (file s.method) s.method t) .empty

/-! ## Different handlers -/

/-- Another class, or another name of the method. -/
def Differ (m m' : μ) : Prop :=
  M.parentQualifiedName m ≠ M.parentQualifiedName m' ∨ M.nameAsString m ≠ M.nameAsString m'

/-- The name of the method goes on with an underscore and a word that begins the other class. -/
def Shifted (m m' : μ) : Prop :=
  ∃ word, M.nameAsString m = M.nameAsString m' ++ '_' :: word ∧
    M.parentName m' = word ++ '_' :: M.parentName m

/-- Two handlers with one symbol: the method of classes with the same name in two namespaces, or
names that differ in where the underscore between method and class is. -/
def Clash (m m' : μ) : Prop :=
  M.nameAsString m = M.nameAsString m' ∧ M.parentName m = M.parentName m' ∧
      M.parentQualifiedName m ≠ M.parentQualifiedName m' ∨
    Shifted M m m' ∨ Shifted M m' m

/-- Two pairs that are joined to one string are the same, or one separator is behind the other. -/
lemma join_eq_iff {a b c d : Str} : a ++ '_' :: b = c ++ '_' :: d ↔
    a = c ∧ b = d ∨ (∃ w, a = c ++ '_' :: w ∧ d = w ++ '_' :: b) ∨
      ∃ w, c = a ++ '_' :: w ∧ b = w ++ '_' :: d := by
  constructor
  · intro h
    rcases List.append_eq_append_iff.mp h with ⟨w, hc, hb⟩ | ⟨w, ha, hd⟩
    · cases w with
      | nil =>
        rw [List.append_nil] at hc
        exact .inl ⟨hc.symm, List.tail_eq_of_cons_eq hb⟩
      | cons x w =>
        obtain ⟨rfl, hrest⟩ := List.cons.inj hb
        exact .inr (.inr ⟨w, hc, hrest⟩)
    · cases w with
      | nil =>
        rw [List.append_nil] at ha
        exact .inl ⟨ha, (List.tail_eq_of_cons_eq hd).symm⟩
      | cons x w =>
        obtain ⟨rfl, hrest⟩ := List.cons.inj hd
        exact .inr (.inl ⟨w, ha, hrest⟩)
  · rintro (⟨rfl, rfl⟩ | ⟨w, rfl, rfl⟩ | ⟨w, rfl, rfl⟩)
    · rfl
    · simp
    · simp

lemma stubName_eq_iff : stubName M funcName m = stubName M funcName m' ↔
    M.nameAsString m = M.nameAsString m' ∧ M.parentName m = M.parentName m' ∨
      Shifted M m m' ∨ Shifted M m' m := by
  have hsplit (x : μ) : stubName M funcName x
      = funcName ++ (M.nameAsString x ++ '_' :: M.parentName x) := by
    simp [stubName]
  rw [hsplit, hsplit, List.append_cancel_left_eq, join_eq_iff]
  rfl

lemma Shifted.differ (h : Shifted M m m') : Differ M m m' := by
  obtain ⟨word, hname, -⟩ := h
  right
  intro heq
  have hlen := congrArg List.length (hname.symm.trans heq)
  simp at hlen

/-- Different handlers have one symbol exactly if they clash. -/
lemma differ_and_stubName_eq_iff (funcName : Str) :
    (Differ M m m' ∧ stubName M funcName m = stubName M funcName m') ↔ Clash M m m' := by
  rw [stubName_eq_iff]
  constructor
  · rintro ⟨hdiffer, ⟨hname, hparent⟩ | hshifted⟩
    · exact .inl ⟨hname, hparent, hdiffer.resolve_right (not_not.mpr hname)⟩
    · exact .inr hshifted
  · rintro (⟨hname, hparent, hclass⟩ | hshifted | hshifted)
    · exact ⟨.inl hclass, .inl ⟨hname, hparent⟩⟩
    · exact ⟨hshifted.differ, .inr (.inl hshifted)⟩
    · exact ⟨hshifted.differ.imp Ne.symm Ne.symm, .inr (.inr hshifted)⟩

/-! ## Linking -/

/-- A stub does not replace another, and nothing is reported. -/
lemma addDefinedFunction_stub {t : Table Str φ μ Str} (entry name : Str) (m : μ)
    (h : ∀ n s, t.find n = some s → ∃ m, s = stubSymbol file m) :
    (addDefinedFunction entry name (some stubSignature) true (file m) m t).find
        = Function.update t.find name ((t.find name).or (some (stubSymbol file m))) ∧
      (addDefinedFunction entry name (some stubSignature) true (file m) m t).messages
        = t.messages := by
  unfold addDefinedFunction Link.Symtab.addDefined
  cases hfind : t.find name with
  | none => exact ⟨rfl, rfl⟩
  | some existing =>
    obtain ⟨m', rfl⟩ := h name existing hfind
    -- the types are the same, and a weak symbol does not replace another
    have hcheck : (if name = entry then [] else Link.Symtab.checkFunctionType name
        (some stubSignature) (some (file m)) (.function (some stubSignature)) (some (file m')))
        = ([] : List (Message Str φ)) := by
      split <;> rfl
    have hsame : Function.update t.find name (some (stubSymbol file m')) = t.find := by
      rw [← hfind, Function.update_eq_self]
    simp only [stubSymbol, Link.Symtab.Kind.declared, Link.Symtab.shouldReplace, hcheck]
    rw [Option.some_or, ← stubSymbol, hsame]
    exact ⟨hsame, List.append_nil _⟩

/-- The first stub of each symbol is linked, and nothing is reported. -/
lemma linkStubs_eq (entry : Str) (stubs : List (Stub μ)) :
    (∀ name, (linkStubs M file entry funcName stubs).find name
      = (stubs.find? fun s => stubName M funcName s.method = name).map
        fun s => stubSymbol file s.method) ∧
    (linkStubs M file entry funcName stubs).messages = [] := by
  induction stubs using List.reverseRecOn with
  | nil => exact ⟨fun _ => rfl, rfl⟩
  | append_singleton stubs s ih =>
    obtain ⟨hfind, hmessages⟩ := ih
    have hstub : ∀ n x, (linkStubs M file entry funcName stubs).find n = some x →
        ∃ m, x = stubSymbol file m := by
      intro n x hx
      rw [hfind, Option.map_eq_some_iff] at hx
      obtain ⟨y, -, rfl⟩ := hx
      exact ⟨y.method, rfl⟩
    obtain ⟨hadd, hsame⟩ :=
      addDefinedFunction_stub file entry (stubName M funcName s.method) s.method hstub
    rw [linkStubs, List.foldl_append, List.foldl_cons, List.foldl_nil]
    refine ⟨fun name => ?_, hsame.trans hmessages⟩
    rw [List.find?_append, List.find?_singleton]
    refine (congrFun hadd name).trans ?_
    by_cases hname : stubName M funcName s.method = name
    · subst hname
      rw [Function.update_self, if_pos (decide_eq_true rfl), hfind]
      cases stubs.find? fun x => stubName M funcName x.method = stubName M funcName s.method <;> rfl
    · rw [Function.update_of_ne (Ne.symm hname), if_neg (by simpa using hname), Option.or_none,
        hfind]

/-- For the stubs of any methods: the linker reports nothing, and those of different handlers have
different symbols, and each symbol is linked with a stub of its handler, exactly if no two handlers
clash. -/
theorem stubs_unique_iff (entry : Str) (hasUosiolib : Bool) (attr funcName : Str) (str : μ → Str)
    (methods : List μ) :
    let stubs := methods.flatMap fun m => createDispatch M hasUosiolib attr funcName (str m) m
    (linkStubs M file entry funcName stubs).messages = [] ∧
    (((∀ s ∈ stubs, ∀ s' ∈ stubs, Differ M s.method s'.method →
        stubName M funcName s.method ≠ stubName M funcName s'.method) ∧
      ∀ s ∈ stubs, ∃ m, ¬ Differ M s.method m ∧
        (linkStubs M file entry funcName stubs).find (stubName M funcName s.method)
          = some (stubSymbol file m)) ↔
    ∀ s ∈ stubs, ∀ s' ∈ stubs, ¬ Clash M s.method s'.method) := by
  intro stubs
  refine ⟨(linkStubs_eq M file entry stubs).2, ?_⟩
  have hnames : (∀ s ∈ stubs, ∀ s' ∈ stubs, Differ M s.method s'.method →
        stubName M funcName s.method ≠ stubName M funcName s'.method) ↔
      ∀ s ∈ stubs, ∀ s' ∈ stubs, ¬ Clash M s.method s'.method := by
    refine forall₂_congr fun s _ => forall₂_congr fun s' _ => ?_
    rw [← differ_and_stubName_eq_iff M funcName, not_and]
  rw [← hnames]
  refine and_iff_left_of_imp fun hunique s hs => ?_
  obtain ⟨s', hs'⟩ : ∃ s', (stubs.find? fun x =>
      stubName M funcName x.method = stubName M funcName s.method) = some s' := by
    apply Option.isSome_iff_exists.mp
    rw [List.find?_isSome]
    exact ⟨s, hs, decide_eq_true rfl⟩
  have hsame : stubName M funcName s'.method = stubName M funcName s.method := by
    simpa using List.find?_some hs'
  refine ⟨s'.method, fun hdiffer => ?_, ?_⟩
  · exact hunique s hs s' (List.mem_of_find?_eq_some hs') hdiffer hsame.symm
  · rw [(linkStubs_eq M file entry stubs).1, hs']
    rfl

end stubs

/-- The method `a_b` of the class `c` and the method `a` of the class `b_c`, both of one contract. -/
def underscoreMethods : Methods Bool where
  nameAsString m := if m then "a".toList else "a_b".toList
  parentName m := if m then "b_c".toList else "c".toList
  parentQualifiedName m := if m then "b_c".toList else "c".toList
  parameters _ := []
  isUosioContract _ := true

/-- Both actions have the stub `__uosio_action_a_b_c`. -/
theorem exists_shared_stub : ¬ ∀ (M : Methods Bool) (m m' : Bool),
    M.isUosioContract m = true → M.isUosioContract m' = true → Differ M m m' →
      stubName M "__uosio_action_".toList m ≠ stubName M "__uosio_action_".toList m' := by
  intro h
  apply h underscoreMethods false true rfl rfl (.inr (by decide))
  decide

end UosioCdt.Tools.Codegen
