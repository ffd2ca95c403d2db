import UosioCdt.Dispatch.MarkLive
import UosioCdt.Dispatch.WriterTheorems

/-!
# Theorems: what garbage collection keeps for the dispatcher

A chunk is live when its symbol can be reached along relocations from a root, so the functions of
the dispatcher stay exactly when each of them can be.
-/

namespace UosioCdt.Dispatch.Gc

open Marking Tools

variable {σ κ γ : Type} {L : Link σ κ γ} {s t : σ} {c : κ} {name : Str}

namespace Link

/-! ## The roots -/

/-- An object file that has a function of this name lists it in an entry; for a hook, it lists any
action. -/
def Listed (L : Link σ κ γ) (name : Str) : Prop :=
  ∃ file ∈ L.objectFiles, name ∈ file.functions.map (·.1) ∧
    ((∃ act ∈ file.uosioActions, afterColon act = name) ∨
      (isHook name = true ∧ file.uosioActions ≠ []) ∨
      ∃ notif ∈ file.uosioNotify, afterColon (notifySub notif) = name)

/-- A symbol that is kept for its own sake. -/
def Root (L : Link σ κ γ) (s : σ) : Prop :=
  (L.entry ≠ [] ∧ L.find L.entry = some s) ∨ s = L.callCtors ∨ L.find cxaFinalize = some s ∨
    (s ∈ L.symbols ∧ L.isHidden s = false) ∨ (∃ file ∈ L.objectFiles, s ∈ file.initFunctions) ∨
    ∃ name, L.Listed name ∧ L.find name = some s

/-- A symbol of the chunk is reached along relocations from a root. -/
def Kept (L : Link σ κ γ) (c : κ) : Prop :=
  ∃ r s, L.Root r ∧ Relation.ReflTransGen L.graph.Refers r s ∧ L.getChunk s = some c

lemma mem_findSymbol : s ∈ L.findSymbol name ↔ L.find name = some s := Option.mem_toList

/-- The two scans of the entries find the listed names. -/
lemma mem_scans_iff :
    (s ∈ (L.objectFiles.flatMap fun file => file.functions.flatMap fun func =>
        file.uosioActions.flatMap fun act => L.actionRoots func.1 act) ∨
      s ∈ L.objectFiles.flatMap fun file => file.functions.flatMap fun func =>
        file.uosioNotify.flatMap fun notif => L.notifyRoots func.1 notif) ↔
    ∃ name, L.Listed name ∧ L.find name = some s := by
  have hact (func act : Str) : s ∈ L.actionRoots func act ↔
      (func = afterColon act ∨ isHook func = true) ∧ L.find func = some s := by
    unfold actionRoots
    rw [List.mem_append]
    split <;> split <;> simp_all [mem_findSymbol]
  have hnot (func notif : Str) : s ∈ L.notifyRoots func notif ↔
      func = afterColon (notifySub notif) ∧ L.find func = some s := by
    unfold notifyRoots
    split <;> simp_all [mem_findSymbol]
  simp only [List.mem_flatMap, hact, hnot]
  constructor
  · rintro (⟨file, hfile, func, hfunc, act, hmem, hor, hfind⟩ |
      ⟨file, hfile, func, hfunc, notif, hmem, heq, hfind⟩)
    · refine ⟨func.1, ⟨file, hfile, List.mem_map_of_mem hfunc, ?_⟩, hfind⟩
      rcases hor with heq | hhook
      · exact .inl ⟨act, hmem, heq.symm⟩
      · exact .inr (.inl ⟨hhook, List.ne_nil_of_mem hmem⟩)
    · exact ⟨func.1, ⟨file, hfile, List.mem_map_of_mem hfunc, .inr (.inr ⟨notif, hmem, heq.symm⟩)⟩,
        hfind⟩
  · rintro ⟨name, ⟨file, hfile, hname, hlist⟩, hfind⟩
    obtain ⟨func, hfunc, rfl⟩ := List.mem_map.mp hname
    rcases hlist with ⟨act, hmem, heq⟩ | ⟨hhook, hne⟩ | ⟨notif, hmem, heq⟩
    · exact .inl ⟨file, hfile, func, hfunc, act, hmem, .inl heq.symm, hfind⟩
    · obtain ⟨act, hmem⟩ := List.exists_mem_of_ne_nil _ hne
      exact .inl ⟨file, hfile, func, hfunc, act, hmem, .inr hhook, hfind⟩
    · exact .inr ⟨file, hfile, func, hfunc, notif, hmem, heq.symm, hfind⟩

lemma mem_roots_iff : s ∈ L.roots ↔ L.Root s := by
  have hentry : s ∈ (if L.entry = [] then [] else L.findSymbol L.entry) ↔
      L.entry ≠ [] ∧ L.find L.entry = some s := by
    split <;> simp_all [mem_findSymbol]
  have hvisible : s ∈ L.symbols.filter (fun sym => !L.isHidden sym) ↔
      s ∈ L.symbols ∧ L.isHidden s = false := by
    simp
  have hinit : s ∈ L.objectFiles.flatMap (·.initFunctions) ↔
      ∃ file ∈ L.objectFiles, s ∈ file.initFunctions := List.mem_flatMap
  unfold roots Root
  rw [← mem_scans_iff]
  simp only [List.mem_append, hentry, hvisible, hinit, List.mem_singleton, mem_findSymbol, or_assoc]

/-! ## What `markLive` leaves live -/

lemma mem_chunks (h : L.getChunk s = some c) : c ∈ L.chunks := by
  unfold chunks
  rw [List.mem_append, List.mem_flatMap]
  unfold getChunk at h
  cases hk : L.kind s with
  | definedFunction function =>
    simp only [hk, Option.some.injEq] at h
    rcases L.function_mem s c (h ▸ hk) with hc | ⟨file, hfile, hc⟩
    · exact .inl hc
    · exact .inr ⟨file, hfile, List.mem_append_left _ hc⟩
  | definedData segment =>
    simp only [hk] at h
    obtain ⟨file, hfile, hc⟩ := L.segment_mem s c (h ▸ hk)
    exact .inr ⟨file, hfile, List.mem_append_right _ hc⟩
  | _ => simp [hk] at h

variable [DecidableEq σ] [DecidableEq κ] [DecidableEq γ]

/-- The loop runs until its stack is empty. -/
lemma markLive_queue : L.markLive.queue = [] := by
  have hall : ∀ s k, L.graph.chunk s = some k → k ∈ L.chunks.toFinset :=
    fun s k h => List.mem_toFinset.mpr (mem_chunks h)
  apply sweep_queue hall
  -- marking the roots leaves no more to do than there are chunks
  apply (pending_enqueueAll hall).trans
  unfold Graph.pending
  rw [List.length_nil, zero_add]
  exact (Finset.card_filter_le _ _).trans (List.toFinset_card_le _)

/-- The chunk of a symbol is live exactly when it is reached. -/
lemma live_iff_kept (h : L.getChunk s = some c) : L.live c = true ↔ L.Kept c := by
  -- the flag that is set before is that of a global, and no chunk has it
  have hstart : ∀ s k, L.graph.chunk s = some k →
      L.graph.bit s ∉ [Flag.globalLive L.stackPointer] := by
    intro s k hk hmem
    have hflag : L.liveFlag s = .chunkLive k := (L.getChunk_eq_some_iff s k).mp hk
    have hmem' : L.liveFlag s ∈ [Flag.globalLive L.stackPointer] := hmem
    rw [hflag] at hmem'
    simp at hmem'
  have hinv : Invariant L.graph _ L.roots L.markLive := (invariant_enqueueAll hstart).sweep
  have hbit := hinv.bit_mem_iff (t := s) markLive_queue
  have hflag : L.liveFlag s = .chunkLive c := (L.getChunk_eq_some_iff s c).mp h
  have hlive : L.live c = true ↔ L.graph.bit s ∈ L.markLive.live := by
    show decide _ = true ↔ L.liveFlag s ∈ _
    rw [hflag, decide_eq_true_iff]
  rw [hlive, hbit, or_iff_right (hstart s c h)]
  constructor
  · rintro ⟨u, ⟨r, hr, hru⟩, hsu⟩
    refine ⟨r, u, mem_roots_iff.mp hr, hru, ?_⟩
    rw [L.getChunk_eq_some_iff, ← hflag]
    exact hsu.symm
  · rintro ⟨r, u, hr, hru, hu⟩
    refine ⟨u, ⟨r, mem_roots_iff.mpr hr, hru⟩, ?_⟩
    show L.liveFlag s = L.liveFlag u
    rw [hflag, (L.getChunk_eq_some_iff u c).mp hu]

/-! ## What `assignIndexes` numbers -/

lemma isSome_index_foldl (l : List κ) (st : Indexes κ) :
    ((l.foldl L.addDefinedFunction st).index c).isSome ↔
      (st.index c).isSome ∨ c ∈ l ∧ L.live c = true := by
  induction l generalizing st with
  | nil => simp
  | cons func l ih =>
    have hadd : ((L.addDefinedFunction st func).index c).isSome ↔
        (st.index c).isSome ∨ c = func ∧ L.live c = true := by
      unfold addDefinedFunction Indexes.assign
      by_cases hc : c = func
      · subst hc
        split <;> simp_all
      · split <;> simp [hc]
    rw [List.foldl_cons, ih, hadd, List.mem_cons, or_assoc, ← or_and_right]

/-- A defined function has an index exactly when it is live. -/
lemma isSome_getFunctionIndex_iff (h : L.kind s = .definedFunction c) :
    (L.getFunctionIndex s).isSome ↔ L.live c = true := by
  -- every defined function is in the list, so only the test of its flag matters
  have hmem : c ∈ L.definedFunctions := by
    unfold definedFunctions
    rw [List.mem_append, List.mem_flatMap]
    exact L.function_mem s c h
  have hindex := isSome_index_foldl (L := L) (c := c) L.definedFunctions
    ⟨L.calculateImports.counter, fun _ => none⟩
  unfold getFunctionIndex assignIndexes
  simp only [h, hindex]
  simp [hmem]

/-! ## The functions of the dispatcher -/

/-- `createDispatchFunction` looks this name up for a call: of an action entry, of a notify entry,
or of a hook. -/
def Dispatched (L : Link σ κ γ) (name : Str) : Prop :=
  (∃ act ∈ L.linker.actions, afterColon act = name) ∨
    (∃ notif ∈ L.linker.notifies, ∃ rest, afterColons notif = .ok rest ∧ afterColon rest = name) ∨
    name = preDispatch ∨ name = postDispatch

/-- The dispatcher calls the defined function `c` by this name and symbol. -/
structure Calls (L : Link σ κ γ) (name : Str) (s : σ) (c : κ) : Prop where
  dispatched : L.Dispatched name
  find : L.find name = some s
  kind : L.kind s = .definedFunction c

/-- A function that is not hidden, or that an object file with a function of its name lists, is
kept. -/
lemma Calls.kept (h : L.Calls name s c) (hroot : L.isHidden s = false ∨ L.Listed name) :
    L.Kept c := by
  have hchunk : L.getChunk s = some c := by
    unfold getChunk
    rw [h.kind]
  refine ⟨s, s, ?_, .refl, hchunk⟩
  rcases hroot with hvisible | hlisted
  · exact .inr (.inr (.inr (.inl ⟨L.find_mem name s h.find, hvisible⟩)))
  · exact .inr (.inr (.inr (.inr (.inr ⟨name, hlisted, h.find⟩))))

/-- Every function that the dispatcher calls is marked live and numbered, exactly when each of them
is not hidden, or listed by an object file that has a function of its name, or reached along
relocations from a root. -/
theorem dispatched_live_iff (L : Link σ κ γ) :
    (∀ name s c, L.Calls name s c → L.live c = true ∧ (L.getFunctionIndex s).isSome) ↔
      ∀ name s c, L.Calls name s c → L.isHidden s = false ∨ L.Listed name ∨ L.Kept c := by
  have hlive {name : Str} {s : σ} {c : κ} (h : L.Calls name s c) : L.live c = true ↔ L.Kept c := by
    apply live_iff_kept (s := s)
    unfold getChunk
    rw [h.kind]
  constructor
  · intro hall name s c h
    exact .inr (.inr ((hlive h).mp (hall name s c h).1))
  · intro hall name s c h
    have hkept : L.Kept c := by
      rcases hall name s c h with hvisible | hlisted | hkept
      · exact h.kept (.inl hvisible)
      · exact h.kept (.inr hlisted)
      · exact hkept
    have hc := (hlive h).mpr hkept
    exact ⟨hc, (isSome_getFunctionIndex_iff h.kind).mpr hc⟩

end Link

/-! ## A hook that is collected -/

/-- A contract whose `pre_dispatch` is hidden and comes from an object file without actions. The
symbols are `__wasm_call_ctors`, `apply`, the handler of the action `hi`, `pre_dispatch`, and
`uosio_assert_code`, which is imported; a defined function has the number of its symbol. -/
def hiddenHook : Link (Fin 5) (Fin 5) Unit where
  entry := "apply".toList
  callCtors := 0
  stackPointer := ()
  find name :=
    if name = wasmCallCtors then some 0
    else if name = "apply".toList then some 1
    else if name = "__uosio_action_hi".toList then some 2
    else if name = preDispatch then some 3
    else if name = uosioAssertCode then some 4
    else none
  symbols := [0, 1, 2, 3, 4]
  kind s := if s = 4 then .undefinedFunction else .definedFunction s
  isHidden s := s = 0 ∨ s = 3
  isWeak s := s = 1
  isUsedInRegularObj s := s ≠ 0
  tableIndex _ := none
  relocations _ := []
  getSymbol _ _ := 0
  syntheticFunctions := [0, 1]
  objectFiles :=
    [{ uosioActions := ["hi:__uosio_action_hi".toList], uosioNotify := [],
       functions := [("__uosio_action_hi".toList, 2)], segments := [], initFunctions := [] },
     { uosioActions := [], uosioNotify := [],
       functions := [(preDispatch, 3)], segments := [], initFunctions := [] }]
  find_mem _ s h := by
    clear h
    revert s
    decide
  function_mem s c h := by
    revert s c
    decide
  segment_mem s c h := by
    revert s c
    decide

/-- The dispatcher calls `pre_dispatch`, which is not live and has no index. -/
theorem hiddenHook_collected : hiddenHook.Calls preDispatch 3 3 ∧
    ¬ (hiddenHook.live 3 = true ∧ (hiddenHook.getFunctionIndex 3).isSome) := by
  have hcalls : hiddenHook.Calls preDispatch 3 3 := by
    constructor
    · exact .inr (.inr (.inl rfl))
    · decide
    · decide
  have hdead : hiddenHook.live 3 = false := by decide
  apply And.intro hcalls
  rw [hdead]
  exact fun h => Bool.false_ne_true h.1

end UosioCdt.Dispatch.Gc
