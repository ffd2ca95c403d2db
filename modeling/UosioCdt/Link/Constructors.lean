import Mathlib.Data.List.Sort
import UosioCdt.Dispatch.Exec
import UosioCdt.Dispatch.MarkLiveTheorems
import UosioCdt.Link.IndexesTheorems

/-!
# `__wasm_call_ctors`

`calculateInitFunctions` collects the init functions of the object files and sorts them by their
priority, and `createCtorFunction` writes a body that calls them. The dispatcher calls this function
before everything else.
-/

namespace UosioCdt.Link

open Dispatch Leb128 StructuredCode

/-- `WasmInitEntry` -/
structure WasmInitEntry (σ : Type) where
  sym : σ
  priority : UInt32

/-- The linker with the init functions of the linking sections, by object file. -/
structure InitInput (σ κ γ : Type) extends Input σ κ γ where
  linkingData : List (List (WasmInitEntry σ))
  linkingData_eq : linkingData.map (·.map (·.sym)) = link.objectFiles.map (·.initFunctions)

/-- `WasmSignature{{}, WASM_TYPE_NORESULT}` -/
def initSignature : WasmSignature := ⟨[], 0x40⟩

namespace InitInput

variable {σ κ γ : Type} (I : InitInput σ κ γ)

/-- The errors of `calculateInitFunctions`; `name` is `toString` of a symbol. -/
def initErrors (name : σ → String) : List String :=
  I.linkingData.flatten.filterMap fun entry =>
    if I.signature (I.target entry.sym) ≠ initSignature then
      some ("invalid signature for init func: " ++ name entry.sym)
    else none

/-- `InitFunctions` behind `calculateInitFunctions`, which uses a stable sort. -/
def calculateInitFunctions : List (WasmInitEntry σ) :=
  I.linkingData.flatten.insertionSort fun l r => l.priority ≤ r.priority

variable [DecidableEq σ] [DecidableEq κ] [DecidableEq γ]

/-- `BodyContent` of `createCtorFunction`; it asserts that the functions have an index. -/
def ctorContent : Option (List UInt8) := do
  let indexes ← I.calculateInitFunctions.mapM fun entry => I.link.getFunctionIndex entry.sym
  return encodeU 0 ++ (indexes.map (fun i => Tok.op (Plain.call i)) ++ [Tok.end_]).flatMap encodeInstr

/-- `FunctionBody` of `createCtorFunction` -/
def createCtorFunction : Option (List UInt8) :=
  I.ctorContent.map fun content => encodeU (content.length % 2 ^ 32) ++ content

end InitInput

/-! ## Calls one after the other -/

/-- The body calls the functions in their order, until one of them traps. -/
lemma exec_calls (env : Env) (p : Params) (indexes : List UInt32) (calls : List Call)
    (henv : ∀ i ∈ indexes, (env i).arity = 0 ∧
      ∀ made results, (env i).run made [] = .ret results → results = []) :
    execBlock env p (ops (indexes.map .call) .nil) ⟨[], calls⟩
        = .done ⟨[], calls ++ indexes.map fun i => ⟨i, []⟩⟩ ∨
      ∃ before i after, indexes = before ++ i :: after ∧
        (env i).run (calls ++ before.map fun i => ⟨i, []⟩) [] = .trap ∧
        execBlock env p (ops (indexes.map .call) .nil) ⟨[], calls⟩
          = .trap ⟨[], calls ++ (before ++ [i]).map fun i => ⟨i, []⟩⟩ := by
  induction indexes generalizing calls with
  | nil =>
    left
    rw [List.map_nil, List.map_nil, List.append_nil]
    rfl
  | cons i indexes ih =>
    obtain ⟨harity, hresults⟩ := henv i List.mem_cons_self
    have hstep : execPlain env p (.call i) ⟨[], calls⟩ = invoke env i [] ⟨[], calls⟩ := by
      rw [execPlain, harity]
      rfl
    rw [List.map_cons, exec_ops_cons, hstep, invoke]
    cases hrun : (env i).run calls [] with
    | trap =>
      refine .inr ⟨[], i, indexes, rfl, ?_, rfl⟩
      rw [List.map_nil, List.append_nil, hrun]
    | ret results =>
      obtain rfl := hresults calls results hrun
      have hrest := ih (calls ++ [⟨i, []⟩]) fun j hj => henv j (List.mem_cons_of_mem _ hj)
      simp only [Outcome.andThen, List.reverse_nil, List.nil_append, List.append_assoc,
        List.singleton_append] at hrest ⊢
      rcases hrest with hdone | ⟨before, j, after, rfl, htrap, hexec⟩
      · exact .inl hdone
      · exact .inr ⟨i :: before, j, after, rfl, htrap, hexec⟩

namespace InitInput

variable {σ κ γ : Type} {I : InitInput σ κ γ}

lemma signature_of_initErrors {name : σ → String} (h : I.initErrors name = [])
    {entry : WasmInitEntry σ} (hentry : entry ∈ I.linkingData.flatten) :
    I.signature (I.target entry.sym) = initSignature := by
  by_contra hne
  have hnone := List.filterMap_eq_nil_iff.mp h entry hentry
  rw [if_pos hne] at hnone
  cases hnone

variable [DecidableEq σ] [DecidableEq κ] [DecidableEq γ]

/-- The init functions are kept by the garbage collection, so that they have an index. -/
lemma isSome_getFunctionIndex {entry : WasmInitEntry σ} (hentry : entry ∈ I.linkingData.flatten)
    (hdefined : ∃ func, I.link.kind entry.sym = .definedFunction func) :
    (I.link.getFunctionIndex entry.sym).isSome := by
  obtain ⟨func, hkind⟩ := hdefined
  have hchunk : I.link.getChunk entry.sym = some func := by
    unfold Gc.Link.getChunk
    rw [hkind]
  obtain ⟨entries, hentries, hmem⟩ := List.mem_flatten.mp hentry
  have hsyms : entries.map (·.sym) ∈ I.link.objectFiles.map (·.initFunctions) := by
    rw [← I.linkingData_eq]
    exact List.mem_map_of_mem hentries
  obtain ⟨file, hfile, hinit⟩ := List.mem_map.mp hsyms
  have hroot : I.link.Root entry.sym := by
    refine .inr (.inr (.inr (.inr (.inl ⟨file, hfile, ?_⟩))))
    rw [hinit]
    exact List.mem_map_of_mem hmem
  rw [Gc.Link.isSome_getFunctionIndex_iff hkind, Gc.Link.live_iff_kept hchunk]
  exact ⟨entry.sym, entry.sym, hroot, .refl, hchunk⟩

lemma mapM_getFunctionIndex {entries : List (WasmInitEntry σ)}
    (h : ∀ entry ∈ entries, (I.link.getFunctionIndex entry.sym).isSome) :
    ∃ indexes, entries.mapM (fun entry => I.link.getFunctionIndex entry.sym) = some indexes ∧
      entries.map (fun entry => I.link.getFunctionIndex entry.sym) = indexes.map some := by
  induction entries with
  | nil => exact ⟨[], rfl, rfl⟩
  | cons entry entries ih =>
    obtain ⟨i, hi⟩ := Option.isSome_iff_exists.mp (h entry List.mem_cons_self)
    obtain ⟨indexes, hmapM, hmap⟩ := ih fun e he => h e (List.mem_cons_of_mem _ he)
    refine ⟨i :: indexes, ?_, ?_⟩
    · rw [List.mapM_cons, hi, hmapM]
      rfl
    · rw [List.map_cons, hi, hmap]
      rfl

/-- The init functions of all object files are called once each, lower priorities first and those
of one priority in the order of the link; a function that traps ends the calls. -/
theorem execBody_ctorContent (I : InitInput σ κ γ) (h : I.Small)
    (hdefined : ∀ entry ∈ I.linkingData.flatten, ∃ func,
      I.link.kind entry.sym = .definedFunction func)
    (name : σ → String) (hok : I.initErrors name = []) (env : Env)
    (henv : ∀ i func, I.call i = some func → I.signature func = initSignature →
      (env i).arity = 0 ∧ ∀ made results, (env i).run made [] = .ret results → results = [])
    (p : Params) :
    ∃ content indexes, I.ctorContent = some content ∧
      indexes.map I.call = I.calculateInitFunctions.map (fun entry => some (I.target entry.sym)) ∧
      (I.calculateInitFunctions.Perm I.linkingData.flatten ∧
        I.calculateInitFunctions.Pairwise (fun l r => l.priority ≤ r.priority) ∧
        ∀ l r, [l, r].Sublist I.linkingData.flatten → l.priority ≤ r.priority →
          [l, r].Sublist I.calculateInitFunctions) ∧
      (execBody env p content = some (.done ⟨[], indexes.map fun i => ⟨i, []⟩⟩) ∨
        ∃ before i after, indexes = before ++ i :: after ∧
          (env i).run (before.map fun i => ⟨i, []⟩) [] = .trap ∧
          execBody env p content = some (.trap ⟨[], (before ++ [i]).map fun i => ⟨i, []⟩⟩)) := by
  have hperm : I.calculateInitFunctions.Perm I.linkingData.flatten := List.perm_insertionSort _ _
  obtain ⟨indexes, hmapM, hmap⟩ := mapM_getFunctionIndex (I := I) fun entry hentry =>
    isSome_getFunctionIndex (hperm.mem_iff.mp hentry) (hdefined entry (hperm.mem_iff.mp hentry))
  have hcalls : indexes.map I.call
      = I.calculateInitFunctions.map fun entry => some (I.target entry.sym) := by
    have hbind := congrArg (List.map fun i => Option.bind i I.call) hmap
    simp only [List.map_map, Function.comp_def, Option.bind_some] at hbind
    rw [← hbind]
    refine List.map_congr_left fun entry hentry => ?_
    obtain ⟨i, hi⟩ := Option.isSome_iff_exists.mp
      (isSome_getFunctionIndex (hperm.mem_iff.mp hentry) (hdefined entry (hperm.mem_iff.mp hentry)))
    rw [hi]
    exact Input.call_getFunctionIndex h hi
  have hsorted : I.calculateInitFunctions.Pairwise fun l r => l.priority ≤ r.priority := by
    have htotal : Std.Total fun l r : WasmInitEntry σ => l.priority ≤ r.priority :=
      ⟨fun l r => UInt32.le_total l.priority r.priority⟩
    have htrans : IsTrans (WasmInitEntry σ) fun l r => l.priority ≤ r.priority :=
      ⟨fun _ _ _ => UInt32.le_trans⟩
    exact List.pairwise_insertionSort _ _
  have hcontent : I.ctorContent = some (encodeU 0 ++
      (indexes.map (fun i => Tok.op (Plain.call i)) ++ [Tok.end_]).flatMap encodeInstr) := by
    rw [ctorContent, hmapM]
    rfl
  have hexec : execBody env p (encodeU 0 ++
      (indexes.map (fun i => Tok.op (Plain.call i)) ++ [Tok.end_]).flatMap encodeInstr)
      = some (execBlock env p (ops (indexes.map .call) .nil) ⟨[], []⟩) := by
    have hflatten : indexes.map (fun i => Tok.op (Plain.call i))
        = (ops (indexes.map .call) .nil).flatten := by
      rw [flatten_ops, List.map_map, Block.flatten, List.append_nil]
      rfl
    rw [execBody, decodeBody_encode, hflatten]
    change (parseBody _).bind _ = _
    rw [parseBody_flatten]
    rfl
  have hfunctions : ∀ i ∈ indexes, (env i).arity = 0 ∧
      ∀ made results, (env i).run made [] = .ret results → results = [] := by
    intro i hi
    have hmem : I.call i ∈ indexes.map I.call := List.mem_map_of_mem hi
    rw [hcalls] at hmem
    obtain ⟨entry, hentry, hcall⟩ := List.mem_map.mp hmem
    exact henv i _ hcall.symm (signature_of_initErrors hok (hperm.mem_iff.mp hentry))
  refine ⟨_, indexes, hcontent, hcalls, ⟨hperm, hsorted, fun l r hsub hle => ?_⟩, ?_⟩
  · exact List.pair_sublist_insertionSort hle hsub
  · rw [hexec]
    rcases exec_calls env p indexes [] hfunctions with hdone | ⟨before, i, after, hsplit, htrap, hrun⟩
    · exact .inl (congrArg some hdone)
    · exact .inr ⟨before, i, after, hsplit, htrap, congrArg some hrun⟩

end InitInput

/-! ## Two object files with constructors -/

/-- `__wasm_call_ctors` and the init functions of two object files. -/
inductive CtorFunction where
  | callCtors
  | first
  | second
deriving DecidableEq

def ctorLink : Gc.Link CtorFunction CtorFunction Unit where
  entry := []
  callCtors := .callCtors
  stackPointer := ()
  find _ := none
  symbols := [.callCtors, .first, .second]
  kind s := .definedFunction s
  isHidden _ := true
  isWeak _ := false
  isUsedInRegularObj _ := true
  tableIndex _ := none
  relocations _ := []
  getSymbol _ _ := .callCtors
  syntheticFunctions := [.callCtors]
  objectFiles :=
    [{ uosioActions := [], uosioNotify := [], functions := [("first".toList, .first)],
       segments := [], initFunctions := [.first] },
     { uosioActions := [], uosioNotify := [], functions := [("second".toList, .second)],
       segments := [], initFunctions := [.second] }]
  find_mem _ s h := by cases h
  function_mem s c h := by
    clear h
    cases c <;> decide
  segment_mem s c h := by cases h

/-- The second file has the lower priority, so that it comes first. -/
def ctorInput : InitInput CtorFunction CtorFunction Unit where
  link := ctorLink
  files :=
    [{ uosioActions := [], uosioNotify := [], functions := [("first".toList, .first)],
       segments := [], initFunctions := [.first], customSections := [], globals := [], types := [initSignature] },
     { uosioActions := [], uosioNotify := [], functions := [("second".toList, .second)],
       segments := [], initFunctions := [.second], customSections := [], globals := [], types := [initSignature] }]
  syntheticGlobals := [()]
  signature _ := initSignature
  tableIndex _ := none
  files_eq := rfl
  symbols_nodup := by decide
  functions_nodup := by decide
  globals_nodup := by decide
  tableIndex_eq _ := rfl
  tableIndex_eq_zero _ _ h := by cases h
  linkingData := [[⟨.first, 65535⟩], [⟨.second, 101⟩]]
  linkingData_eq := rfl

/-- Functions that return nothing. -/
def returning : Env := fun _ => ⟨0, fun _ _ => .ret []⟩

theorem execBody_ctorContent_two :
    ∃ (content : List UInt8) (indexes : List UInt32), ctorInput.ctorContent = some content ∧
      indexes.map ctorInput.call = [some (.inl .second), some (.inl .first)] ∧
      execBody returning ⟨0, 0, 0⟩ content = some (.done ⟨[], indexes.map fun i => ⟨i, []⟩⟩) := by
  obtain ⟨content, indexes, hcontent, hcalls, -, hrun⟩ :=
    InitInput.execBody_ctorContent ctorInput ⟨by decide, by decide⟩ (fun entry _ => ⟨_, rfl⟩)
      (fun _ => "") (by decide) returning
      (fun _ _ _ _ => ⟨rfl, fun _ _ h => (CallResult.ret.inj h).symm⟩) ⟨0, 0, 0⟩
  refine ⟨content, indexes, hcontent, hcalls, ?_⟩
  rcases hrun with hdone | ⟨_, _, _, _, htrap, _⟩
  · exact hdone
  · cases htrap

end UosioCdt.Link
