import UosioCdt.Dispatch.Exports

/-!
# Theorems: which exports are written

`memcmp` compares as many characters as the candidate has, so a candidate that begins what was asked
for is written as well.
-/

namespace UosioCdt.Dispatch.Export

open Leb128 Tools

variable {behind : ℕ → Str} {beyond : WasmExport → WasmExport → ℕ → Char} {args : List Arg}
  {exports : List WasmExport} {ex : WasmExport}

/-! ## What was asked for -/

/-- An argument has the name and the kind of the candidate. -/
def Named (args : List Arg) (ex : WasmExport) : Prop :=
  ∃ arg ∈ args, arg.kind = ex.kind ∧ arg.name = ex.name

/-- An argument of its kind starts with a star. -/
def Starred (args : List Arg) (ex : WasmExport) : Prop :=
  ∃ arg ∈ args, arg.kind = ex.kind ∧ arg.name.head? = some '*'

/-- The name of the candidate is what memory holds from the name of an argument of its kind on. -/
def Begins (behind : ℕ → Str) (beyond : WasmExport → WasmExport → ℕ → Char) (args : List Arg)
    (ex : WasmExport) : Prop :=
  ∃ arg i, args[i]? = some arg ∧ arg.kind = ex.kind ∧ arg.name ≠ [] ∧
    let x : WasmExport := ⟨stringRef arg.name (behind i), arg.kind, 0⟩
    ∀ k < ex.name.length, cStr x.name (beyond x ex) k = cStr ex.name (beyond x ex) k

/-! ## `should_export` -/

lemma Arg.noNul_name (arg : Arg) : '\x00' ∉ arg.name := fun h =>
  arg.noNul (List.takeWhile_subset _ h)

/-- The name and what lies behind it. -/
lemma stringRef_eq (arg : Arg) (rest : Str) :
    stringRef arg.name rest = arg.name ++ rest.takeWhile (· ≠ '\x00') := by
  apply List.takeWhile_append_of_pos
  intro c hc
  apply decide_eq_true
  rintro rfl
  exact arg.noNul_name hc

lemma memcmpZero_iff {a b : ℕ → Char} {n : ℕ} :
    memcmpZero a b n = true ↔ ∀ i < n, a i = b i := by
  simp [memcmpZero]

lemma mem_configExports {x : WasmExport} : x ∈ configExports behind args ↔
    ∃ arg i, args[i]? = some arg ∧ arg.name ≠ [] ∧
      x = ⟨stringRef arg.name (behind i), arg.kind, 0⟩ := by
  simp only [configExports, List.mem_filterMap, Prod.exists, requested, Option.ite_none_right_eq_some,
    Option.some_inj, List.mk_mem_zipIdx_iff_getElem?]
  constructor
  · rintro ⟨arg, i, hmem, hne, rfl⟩
    exact ⟨arg, i, hmem, hne, rfl⟩
  · rintro ⟨arg, i, hmem, hne, rfl⟩
    exact ⟨arg, i, hmem, hne, rfl⟩

/-- The first character of what was asked for is that of the argument. -/
lemma cStr_stringRef_zero {arg : Arg} (hne : arg.name ≠ []) (rest : Str) (f : ℕ → Char) :
    cStr (stringRef arg.name rest) f 0 = '*' ↔ arg.name.head? = some '*' := by
  rw [stringRef_eq]
  cases hname : arg.name with
  | nil => exact absurd hname hne
  | cons c cs => simp [cStr]

lemma shouldExport_iff : shouldExport beyond (configExports behind args) ex = true ↔
    Begins behind beyond args ex ∨ Starred args ex := by
  rw [shouldExport, List.any_eq_true]
  constructor
  · rintro ⟨x, hx, hmatch⟩
    obtain ⟨arg, i, hmem, hne, rfl⟩ := mem_configExports.mp hx
    rw [Bool.and_eq_true, Bool.or_eq_true, memcmpZero_iff, decide_eq_true_iff,
      decide_eq_true_iff] at hmatch
    obtain ⟨hsame | hstar, hkind⟩ := hmatch
    · exact .inl ⟨arg, i, hmem, hkind, hne, hsame⟩
    · exact .inr ⟨arg, List.mem_of_getElem? hmem, hkind, (cStr_stringRef_zero hne _ _).mp hstar⟩
  · intro h
    rcases h with ⟨arg, i, hmem, hkind, hne, hsame⟩ | ⟨arg, hmem, hkind, hstar⟩
    · refine ⟨_, mem_configExports.mpr ⟨arg, i, hmem, hne, rfl⟩, ?_⟩
      rw [Bool.and_eq_true, Bool.or_eq_true, memcmpZero_iff, decide_eq_true_iff,
        decide_eq_true_iff]
      exact ⟨.inl hsame, hkind⟩
    · obtain ⟨i, hi⟩ := List.mem_iff_getElem?.mp hmem
      have hne : arg.name ≠ [] := by
        intro hnil
        rw [hnil] at hstar
        cases hstar
      refine ⟨_, mem_configExports.mpr ⟨arg, i, hi, hne, rfl⟩, ?_⟩
      rw [Bool.and_eq_true, Bool.or_eq_true, decide_eq_true_iff, decide_eq_true_iff]
      exact ⟨.inr ((cStr_stringRef_zero hne _ _).mpr hstar), hkind⟩

/-- What is asked for by its name is found, unless the name is empty. -/
lemma Named.begins (h : Named args ex) (hne : ex.name ≠ []) : Begins behind beyond args ex := by
  obtain ⟨arg, hmem, hkind, hname⟩ := h
  obtain ⟨i, hi⟩ := List.mem_iff_getElem?.mp hmem
  refine ⟨arg, i, hi, hkind, hname ▸ hne, fun k hk => ?_⟩
  show cStr (stringRef arg.name (behind i)) _ k = _
  rw [stringRef_eq, hname, cStr, cStr, List.getElem?_append_left hk, List.getElem?_eq_getElem hk]
  rfl

/-! ## The section -/

lemma getKind_cases (str : Str) : getKind str = WASM_EXTERNAL_FUNCTION ∨
    getKind str = WASM_EXTERNAL_GLOBAL ∨ getKind str = WASM_EXTERNAL_MEMORY ∨
    getKind str = WASM_EXTERNAL_TABLE := by
  unfold getKind
  split
  · exact .inl rfl
  split
  · exact .inr (.inr (.inr rfl))
  split
  · exact .inr (.inr (.inl rfl))
  · exact .inr (.inl rfl)

/-- The bytes of an export whose kind is known. -/
def exportBytes (ex : WasmExport) : List UInt8 :=
  writeStr ex.name ++ [ex.kind] ++ encodeU ex.index.toNat

/-- A section with these exports. -/
def exportSection (exs : List WasmExport) : List UInt8 :=
  encodeU exs.length ++ exs.flatMap exportBytes

/-- What is exported has a known kind, so that it can be written. -/
lemma writeExport_eq (h : shouldExport beyond (configExports behind args) ex = true) :
    writeExport ex = .ok (exportBytes ex) := by
  have hkind : ∃ arg : Arg, arg.kind = ex.kind := by
    rcases shouldExport_iff.mp h with ⟨arg, -, -, hkind, -⟩ | ⟨arg, -, hkind, -⟩
    · exact ⟨arg, hkind⟩
    · exact ⟨arg, hkind⟩
  obtain ⟨arg, hkind⟩ := hkind
  exact if_pos (hkind ▸ getKind_cases _)

lemma mapM_writeExport {exs : List WasmExport}
    (h : ∀ ex ∈ exs, writeExport ex = .ok (exportBytes ex)) :
    exs.mapM writeExport = .ok (exs.map exportBytes) := by
  induction exs with
  | nil => rfl
  | cons ex exs ih =>
    rw [List.mapM_cons, h ex List.mem_cons_self, ih fun y hy => h y (List.mem_cons_of_mem ex hy)]
    rfl

/-- Without candidates there is no section; otherwise it has those that should be exported. -/
theorem createExportSection_eq (exports : List WasmExport) :
    createExportSection beyond (configExports behind args) exports
      = .ok (if exports = [] then none
          else some (exportSection
            (exports.filter (shouldExport beyond (configExports behind args)))),
        exports.filter (shouldExport beyond (configExports behind args))) := by
  by_cases hnil : exports = []
  · subst hnil
    rfl
  · have hwritten : (exports.filter (shouldExport beyond (configExports behind args))).mapM
        writeExport = .ok ((exports.filter (shouldExport beyond (configExports behind args))).map
          exportBytes) :=
      mapM_writeExport fun ex hex => writeExport_eq (List.mem_filter.mp hex).2
    simp only [createExportSection, if_neg hnil, hwritten, exportSection, List.flatMap_def]
    rfl

/-- The section has the candidates that are asked for exactly if, where no star of its kind is among
the arguments, a candidate that begins one is asked for by its name, and an empty one that is asked
for begins one. -/
theorem createExportSection_exact_iff (behind : ℕ → Str)
    (beyond : WasmExport → WasmExport → ℕ → Char) (args : List Arg) (exports : List WasmExport) :
    (∃ written, createExportSection beyond (configExports behind args) exports
        = .ok (if exports = [] then none else some (exportSection written), written) ∧
      ∀ ex ∈ exports, ex ∈ written ↔ Named args ex ∨ Starred args ex) ↔
    ∀ ex ∈ exports, Starred args ex ∨
      (Begins behind beyond args ex → Named args ex) ∧
      (ex.name = [] → Named args ex → Begins behind beyond args ex) := by
  have hexact : ∀ ex ∈ exports,
      ((ex ∈ exports.filter (shouldExport beyond (configExports behind args)) ↔
        Named args ex ∨ Starred args ex) ↔
      (Starred args ex ∨ (Begins behind beyond args ex → Named args ex) ∧
        (ex.name = [] → Named args ex → Begins behind beyond args ex))) := by
    intro ex hex
    have hbegins : ex.name ≠ [] → Named args ex → Begins behind beyond args ex :=
      fun hne h => h.begins hne
    rw [List.mem_filter, and_iff_right hex, shouldExport_iff]
    tauto
  constructor
  · rintro ⟨written, hsection, hwritten⟩ ex hex
    rw [createExportSection_eq] at hsection
    obtain rfl := (Prod.mk.inj (Except.ok.inj hsection)).2
    exact (hexact ex hex).mp (hwritten ex hex)
  · intro h
    exact ⟨_, createExportSection_eq exports, fun ex hex => (hexact ex hex).mpr (h ex hex)⟩

/-- The argument `apply:function`. -/
def applyArg : Arg := ⟨"apply:function".toList, by decide⟩

/-- With the argument `apply:function` the function `app` is exported. -/
theorem exists_prefix_exported : ¬ ∀ (behind : ℕ → Str)
    (beyond : WasmExport → WasmExport → ℕ → Char) (args : List Arg) (exports : List WasmExport),
    ∃ written, createExportSection beyond (configExports behind args) exports
        = .ok (if exports = [] then none else some (exportSection written), written) ∧
      ∀ ex ∈ exports, ex ∈ written ↔ Named args ex ∨ Starred args ex := by
  intro h
  obtain ⟨written, hsection, hwritten⟩ :=
    h (fun _ => []) (fun _ _ _ => '\x00') [applyArg] [⟨"app".toList, 0, 7⟩]
  rw [createExportSection_eq] at hsection
  obtain rfl := (Prod.mk.inj (Except.ok.inj hsection)).2
  have hasked := (hwritten ⟨"app".toList, 0, 7⟩ List.mem_cons_self).mp (by decide)
  rcases hasked with ⟨arg, harg, -, hname⟩ | ⟨arg, harg, -, hstar⟩
  · obtain rfl := List.mem_singleton.mp harg
    exact absurd hname (by decide)
  · obtain rfl := List.mem_singleton.mp harg
    exact absurd hstar (by decide)

end UosioCdt.Dispatch.Export
