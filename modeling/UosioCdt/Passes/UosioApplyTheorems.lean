import UosioCdt.Passes.UosioApply

/-!
# The paths through an entry point

On every path of an entry function the first call is the first instruction and the second one the
last before the return. This holds for a module exactly when the pass can call both functions
(`runOnModule_brackets_iff`).
-/

namespace UosioCdt.Passes

variable {ι τ : Type} {F F' : Function ι τ} {M M' : Module ι τ} {c d : CallInst}
  {bs : List (BasicBlock ι τ)}

/-! ## Blocks behind the insertions -/

/-- The block at a place with the call that the entry gets. -/
def atEntry (c : CallInst) (i : ℕ) (b : BasicBlock ι τ) : BasicBlock ι τ :=
  if i = 0 then { b with body := .call c :: b.body } else b

/-- The block with the call that a block gets that returns. -/
def atReturn (d : CallInst) (b : BasicBlock ι τ) : BasicBlock ι τ :=
  match b.terminator with
  | .ret _ => { b with body := b.body ++ [.call d] }
  | .other _ _ => b

/-- The block returns. -/
def BasicBlock.Returns (b : BasicBlock ι τ) : Prop := ∃ inst, b.terminator = .ret inst

lemma terminator_atEntry (c : CallInst) (i : ℕ) (b : BasicBlock ι τ) :
    (atEntry c i b).terminator = b.terminator := by
  unfold atEntry
  split <;> rfl

lemma body_atEntry (c : CallInst) (i : ℕ) (b : BasicBlock ι τ) :
    ∃ pre, (atEntry c i b).body = pre ++ b.body ∧
      (i = 0 → pre = [.call c]) ∧ (i ≠ 0 → pre = []) := by
  unfold atEntry
  by_cases hi : i = 0
  · rw [if_pos hi]
    exact ⟨[.call c], rfl, fun _ => rfl, fun h => absurd hi h⟩
  · rw [if_neg hi]
    exact ⟨[], rfl, fun h => absurd h hi, fun _ => rfl⟩

lemma terminator_atReturn (d : CallInst) (b : BasicBlock ι τ) :
    (atReturn d b).terminator = b.terminator := by
  unfold atReturn
  split <;> rfl

lemma body_atReturn (d : CallInst) (b : BasicBlock ι τ) :
    ∃ post, (atReturn d b).body = b.body ++ post ∧
      (b.Returns → post = [.call d]) ∧ (¬ b.Returns → post = []) := by
  unfold atReturn BasicBlock.Returns
  cases hb : b.terminator with
  | ret inst => exact ⟨[.call d], rfl, fun _ => rfl, fun h => absurd ⟨inst, rfl⟩ h⟩
  | other inst successors =>
    refine ⟨[], (List.append_nil _).symm, ?_, fun _ => rfl⟩
    rintro ⟨_, h⟩
    cases h

lemma atReturn_of_not_returns (hb : ¬ b.Returns) : atReturn d b = b := by
  unfold atReturn
  split
  · exact absurd ⟨_, ‹_›⟩ hb
  · rfl

lemma getElem?_insertEntry (c : CallInst) (bs : List (BasicBlock ι τ)) (i : ℕ) :
    (insertEntry c bs)[i]? = bs[i]?.map (atEntry c i) := by
  cases bs with
  | nil => rfl
  | cons b bs =>
    cases i with
    | zero => rfl
    | succ i =>
      show bs[i]? = bs[i]?.map id
      rw [Option.map_id, id]

/-- A call of the destructors that can be made is put into every block that returns. -/
lemma mapM_insertReturn {wasmDtors : Constant} (hd : createCall wasmDtors [0] = some d)
    (bs : List (BasicBlock ι τ)) :
    bs.mapM (insertReturn wasmDtors) = some (bs.map (atReturn d)) := by
  have hreturn (b : BasicBlock ι τ) : insertReturn wasmDtors b = some (atReturn d b) := by
    unfold insertReturn atReturn
    rw [hd]
    cases b.terminator <;> rfl
  induction bs with
  | nil => rfl
  | cons b bs ih =>
    rw [List.mapM_cons, hreturn, ih]
    rfl

/-- If it cannot be made, the loop gets no further than the first block that returns. -/
lemma mapM_insertReturn_none {wasmDtors : Constant} (hd : createCall wasmDtors [0] = none)
    (hret : ∃ b ∈ bs, b.Returns) : bs.mapM (insertReturn wasmDtors) = none := by
  induction bs with
  | nil =>
    obtain ⟨b, hb, -⟩ := hret
    cases hb
  | cons b bs ih =>
    rw [List.mapM_cons]
    by_cases hb : b.Returns
    · obtain ⟨inst, hinst⟩ := hb
      rw [insertReturn, hinst, hd]
      rfl
    · obtain ⟨b', hmem, hret'⟩ := hret
      obtain rfl | hmem := List.mem_cons.mp hmem
      · exact absurd hret' hb
      · rw [ih ⟨b', hmem, hret'⟩]
        cases insertReturn wasmDtors b <;> rfl

lemma mapM_insertReturn_eq {wasmDtors : Constant} (hret : ¬ ∃ b ∈ bs, b.Returns) :
    bs.mapM (insertReturn wasmDtors) = some bs := by
  induction bs with
  | nil => rfl
  | cons b bs ih =>
    have hb : insertReturn wasmDtors b = some b := by
      unfold insertReturn
      split
      · exact absurd ⟨b, List.mem_cons_self, _, ‹_›⟩ hret
      · rfl
    rw [List.mapM_cons, hb, ih fun ⟨b', hmem, h⟩ => hret ⟨b', List.mem_cons_of_mem b hmem, h⟩]
    rfl

lemma exists_returns_iff :
    (∃ b ∈ bs, b.Returns) ↔ ∃ inst, Terminator.ret inst ∈ bs.map (·.terminator) := by
  constructor
  · rintro ⟨b, hb, inst, hinst⟩
    exact ⟨inst, hinst ▸ List.mem_map_of_mem hb⟩
  · rintro ⟨inst, hmem⟩
    obtain ⟨b, hb, hinst⟩ := List.mem_map.mp hmem
    exact ⟨b, hb, inst, hinst⟩

/-! ## Functions behind the insertions -/

/-- A block of the function returns. -/
def Function.Returns (F : Function ι τ) : Prop := ∃ b ∈ F.blocks, b.Returns

/-- `F'` is `F` with both calls, the second one in every block that returns. -/
structure Inserted (F F' : Function ι τ) (c d : CallInst) : Prop where
  global_eq : F'.global = F.global
  blocks_eq : F'.blocks = (insertEntry c F.blocks).map (atReturn d)

lemma insertReturns_some {wasmDtors : Constant}
    (h : F.blocks.mapM (insertReturn wasmDtors) = some bs) :
    ∃ F', F.insertReturns wasmDtors = some F' ∧ F'.global = F.global ∧ F'.blocks = bs := by
  unfold Function.insertReturns
  split
  · rename_i hnone
    cases hnone.symm.trans h
  · rename_i blocks hsome
    obtain rfl := Option.some.inj (hsome.symm.trans h)
    exact ⟨_, rfl, rfl, rfl⟩

lemma insertReturns_none {wasmDtors : Constant}
    (h : F.blocks.mapM (insertReturn wasmDtors) = none) : F.insertReturns wasmDtors = none := by
  unfold Function.insertReturns
  split
  · rfl
  · rename_i blocks hsome
    cases hsome.symm.trans h

lemma returns_insertEntry : (F.insertEntry c).Returns ↔ F.Returns := by
  rw [Function.Returns, Function.Returns, exists_returns_iff, exists_returns_iff,
    Function.insertEntry, map_terminator_insertEntry]

/-- The loop puts in the calls of the destructors. -/
lemma exists_inserted {wasmDtors : Constant} (c : CallInst)
    (hd : createCall wasmDtors [0] = some d) :
    ∃ F', (F.insertEntry c).insertReturns wasmDtors = some F' ∧ Inserted F F' c d := by
  obtain ⟨F', hF', hglobal, hblocks⟩ :=
    insertReturns_some (mapM_insertReturn hd (F.insertEntry c).blocks)
  exact ⟨F', hF', hglobal, hblocks⟩

/-- Where no block returns, there is no call to be made. -/
lemma exists_inserted_of_not_returns (wasmDtors : Constant) (c d : CallInst)
    (hret : ¬ F.Returns) :
    ∃ F', (F.insertEntry c).insertReturns wasmDtors = some F' ∧ Inserted F F' c d := by
  rw [← returns_insertEntry (c := c)] at hret
  obtain ⟨F', hF', hglobal, hblocks⟩ := insertReturns_some (mapM_insertReturn_eq hret)
  refine ⟨F', hF', hglobal, hblocks.trans ?_⟩
  have hsame : ∀ b ∈ (F.insertEntry c).blocks, atReturn d b = b :=
    fun b hb => atReturn_of_not_returns fun hreturns => hret ⟨b, hb, hreturns⟩
  exact ((List.map_congr_left hsame).trans (List.map_id' _)).symm

lemma insertEntry_insertReturns_none {wasmDtors : Constant} (c : CallInst)
    (hd : createCall wasmDtors [0] = none) (hret : F.Returns) :
    (F.insertEntry c).insertReturns wasmDtors = none :=
  insertReturns_none (mapM_insertReturn_none hd (returns_insertEntry.mpr hret))

/-! ## Paths -/

lemma Inserted.getElem? (h : Inserted F F' c d) (i : ℕ) :
    F'.blocks[i]? = F.blocks[i]?.map fun b => atReturn d (atEntry c i b) := by
  rw [h.blocks_eq, List.getElem?_map, getElem?_insertEntry, Option.map_map]
  rfl

lemma Inserted.terminator (h : Inserted F F' c d) (i : ℕ) :
    F'.blocks[i]?.map (·.terminator) = F.blocks[i]?.map (·.terminator) := by
  rw [h.getElem?, Option.map_map]
  congr 1
  funext b
  exact (terminator_atReturn d _).trans (terminator_atEntry c i b)

lemma graph_returns_iff {i : ℕ} :
    F.graph.returns i ↔ ∃ inst, F.blocks[i]?.map (·.terminator) = some (.ret inst) := by
  constructor
  · rintro ⟨b, hb, inst, hinst⟩
    exact ⟨inst, by rw [hb, Option.map_some, hinst]⟩
  · rintro ⟨inst, hmap⟩
    obtain ⟨b, hb, hinst⟩ := Option.map_eq_some_iff.mp hmap
    exact ⟨b, hb, inst, hinst⟩

lemma graph_next_iff {i j : ℕ} :
    F.graph.next i j ↔
      ∃ t, F.blocks[i]?.map (·.terminator) = some t ∧ j ∈ t.successors := by
  constructor
  · rintro ⟨b, hb, hj⟩
    exact ⟨b.terminator, by rw [hb, Option.map_some], hj⟩
  · rintro ⟨t, hmap, hj⟩
    obtain ⟨b, hb, rfl⟩ := Option.map_eq_some_iff.mp hmap
    exact ⟨b, hb, hj⟩

/-- The calls are put around the body of a block. -/
lemma Inserted.body (h : Inserted F F' c d) (hne : F.blocks ≠ []) (i : ℕ) :
    ∃ pre post, F'.graph.body i = pre ++ F.graph.body i ++ post ∧
      (i = 0 → pre = [.inst (.call c)]) ∧ (i ≠ 0 → pre = []) ∧
      (F.graph.returns i → post = [.inst (.call d)]) ∧ (¬ F.graph.returns i → post = []) := by
  have hbody (G : Function ι τ) :
      G.graph.body i = (G.blocks[i]?.elim [] (·.body)).map .inst := rfl
  rw [hbody, hbody, h.getElem?]
  cases hb : F.blocks[i]? with
  | none =>
    have hi : i ≠ 0 := by
      rintro rfl
      exact hne (List.length_eq_zero_iff.mp (Nat.le_zero.mp (List.getElem?_eq_none_iff.mp hb)))
    refine ⟨[], [], rfl, fun h => absurd h hi, fun _ => rfl, ?_, fun _ => rfl⟩
    rintro ⟨b, hb', -⟩
    cases hb.symm.trans hb'
  | some b =>
    obtain ⟨pre, hpre, hentry, hother⟩ := body_atEntry c i b
    obtain ⟨post, hpost, hret, hnext⟩ := body_atReturn d (atEntry c i b)
    have hreturns : F.graph.returns i ↔ (atEntry c i b).Returns := by
      rw [graph_returns_iff, BasicBlock.Returns, terminator_atEntry, hb]
      simp
    refine ⟨pre.map .inst, post.map .inst, ?_, fun h => by rw [hentry h]; rfl,
      fun h => by rw [hother h]; rfl, fun h => by rw [hret (hreturns.mp h)]; rfl,
      fun h => by rw [hnext (mt hreturns.mpr h)]; rfl⟩
    rw [Option.map_some, Option.elim_some, Option.elim_some, hpost, hpre, List.map_append,
      List.map_append]

/-- The calls are put around the paths of the function. -/
lemma Inserted.brackets (h : Inserted F F' c d) (hne : F.blocks ≠ []) :
    ControlFlow.Brackets F.graph F'.graph 0 [.inst (.call c)] [.inst (.call d)] where
  leave_eq i := congrArg Event.leave (h.terminator i)
  returns_iff i := by rw [graph_returns_iff, graph_returns_iff, h.terminator]
  next_iff i j := by rw [graph_next_iff, graph_next_iff, h.terminator]
  body_eq := h.body hne
  not_next_entry := by
    rintro i ⟨b, hb, hj⟩
    exact F.entry_no_pred b (List.mem_of_getElem? hb) hj

/-! ## Callees -/

/-- What the module has under the name, if anything, is of the type. -/
def Module.Fits (M : Module ι τ) (name : String) (type : FunctionType) : Prop :=
  ∀ v, M.getNamedValue name = some v → v.type = type.getUnqual

/-- The pass can make the calls that it puts into the function. -/
structure Callable (M : Module ι τ) (F : Function ι τ) : Prop where
  ctors : IsEntry F → M.Fits "__wasm_call_ctors" wasmCtorsType
  dtors : IsEntry F → F.Returns → M.Fits "__cxa_finalize" wasmDtorsType

/-- The callees of the pass fit in both modules or in none. -/
structure Agrees (M M' : Module ι τ) : Prop where
  ctors : M'.Fits "__wasm_call_ctors" wasmCtorsType ↔ M.Fits "__wasm_call_ctors" wasmCtorsType
  dtors : M'.Fits "__cxa_finalize" wasmDtorsType ↔ M.Fits "__cxa_finalize" wasmDtorsType

lemma Agrees.refl (M : Module ι τ) : Agrees M M := ⟨Iff.rfl, Iff.rfl⟩

lemma Agrees.trans {M'' : Module ι τ} (h : Agrees M M') (h' : Agrees M' M'') : Agrees M M'' :=
  ⟨h'.ctors.trans h.ctors, h'.dtors.trans h.dtors⟩

lemma Agrees.callable_iff (h : Agrees M M') : Callable M' F ↔ Callable M F :=
  ⟨fun hc => ⟨fun he => h.ctors.mp (hc.ctors he), fun he hr => h.dtors.mp (hc.dtors he hr)⟩,
    fun hc => ⟨fun he => h.ctors.mpr (hc.ctors he), fun he hr => h.dtors.mpr (hc.dtors he hr)⟩⟩

lemma agrees_of_getNamedValue (h : ∀ name, M'.getNamedValue name = M.getNamedValue name) :
    Agrees M M' := by
  constructor
  · rw [Module.Fits, Module.Fits, h]
  · rw [Module.Fits, Module.Fits, h]

/-- A function that is put in the place of one of the same name and type. -/
lemma getNamedValue_set {i : ℕ} (hi : M.functions[i]? = some F) (hglobal : F'.global = F.global)
    (name : String) :
    ({ M with functions := M.functions.set i F' } : Module ι τ).getNamedValue name =
      M.getNamedValue name := by
  obtain ⟨hlt, rfl⟩ := List.getElem?_eq_some_iff.mp hi
  have hlt' : i < (M.functions.map Function.global).length := by rwa [List.length_map]
  have hself : (M.functions.map Function.global).set i F'.global =
      M.functions.map Function.global := by
    rw [hglobal, ← List.getElem_map Function.global (h := hlt'), List.set_getElem_self]
  rw [Module.getNamedValue, Module.getNamedValue, List.map_set, hself]

/-- A declaration under a name that the module does not have. -/
lemma getNamedValue_create {name : String} {type : FunctionType}
    (h : M.getNamedValue name = none) (name' : String) :
    ({ M with functions := M.functions ++ [Function.create name type] } :
      Module ι τ).getNamedValue name' =
      if name' = name then some (Function.create (ι := ι) (τ := τ) name type).global
      else M.getNamedValue name' := by
  set f : Function ι τ := Function.create name type
  have hname : f.global.name = name := rfl
  unfold Module.getNamedValue at h ⊢
  rw [List.find?_append, Option.or_eq_none_iff] at h
  rw [List.map_append, List.map_singleton, List.append_assoc, List.find?_append,
    List.singleton_append, List.find?_cons, List.find?_append, hname]
  by_cases heq : name' = name
  · subst heq
    rw [h.1, if_pos rfl, decide_eq_true rfl]
    rfl
  · rw [if_neg heq, decide_eq_false (Ne.symm heq)]

/-- The functions that are there stay, and so do the types of the callees. -/
lemma getOrInsertFunction_keeps (M : Module ι τ) (name : String) (type : FunctionType) :
    M.functions <+: (M.getOrInsertFunction name type).1.functions ∧
      ∀ name' type', (name' = name → type' = type) →
        ((M.getOrInsertFunction name type).1.Fits name' type' ↔ M.Fits name' type') := by
  cases hnamed : M.getNamedValue name with
  | none =>
    have hinsert : (M.getOrInsertFunction name type).1 =
        { M with functions := M.functions ++ [Function.create name type] } := by
      rw [Module.getOrInsertFunction, hnamed]
    rw [hinsert]
    refine ⟨List.prefix_append _ _, fun name' type' htype => ?_⟩
    rw [Module.Fits, Module.Fits, getNamedValue_create hnamed]
    by_cases hname : name' = name
    · obtain rfl := htype hname
      rw [if_pos hname, hname, hnamed]
      refine ⟨nofun, fun _ v hv => ?_⟩
      obtain rfl := Option.some.inj hv
      rfl
    · rw [if_neg hname]
  | some v =>
    have hsame : (M.getOrInsertFunction name type).1 = M := by
      rw [Module.getOrInsertFunction, hnamed]
      show (if _ then _ else _ : Module ι τ × Constant).1 = M
      split <;> rfl
    rw [hsame]
    exact ⟨List.prefix_rfl, fun _ _ _ => Iff.rfl⟩

/-- What it returns can be called if it is of the type. -/
lemma getOrInsertFunction_call {name : String} {type : FunctionType} (h : M.Fits name type)
    (args : List ℕ) :
    ∃ c, createCall (M.getOrInsertFunction name type).2 args = some c ∧
      c.callee = name ∧ c.args = args := by
  cases hnamed : M.getNamedValue name with
  | none =>
    rw [Module.getOrInsertFunction, hnamed]
    exact ⟨_, rfl, rfl, rfl⟩
  | some v =>
    have hname : v.name = name := of_decide_eq_true (List.find?_some hnamed :)
    have hcallee : (M.getOrInsertFunction name type).2 = .global v := by
      rw [Module.getOrInsertFunction, hnamed]
      exact congrArg Prod.snd (if_neg (not_not.mpr (h v hnamed)))
    rw [hcallee]
    exact ⟨_, rfl, hname, rfl⟩

lemma getOrInsertFunction_cast {name : String} {type : FunctionType} (h : ¬ M.Fits name type)
    (args : List ℕ) : createCall (M.getOrInsertFunction name type).2 args = none := by
  obtain ⟨v, hv⟩ := not_forall.mp h
  obtain ⟨hnamed, htype⟩ := Classical.not_imp.mp hv
  have hcallee : (M.getOrInsertFunction name type).2 = .bitCast v type.getUnqual := by
    rw [Module.getOrInsertFunction, hnamed]
    exact congrArg Prod.snd (if_pos htype)
  rw [hcallee]
  rfl

/-! ## The pass at a function -/

/-- The module with both callees. -/
def withCtors (M : Module ι τ) : Module ι τ × Constant :=
  M.getOrInsertFunction "__wasm_call_ctors" wasmCtorsType

def withDtors (M : Module ι τ) : Module ι τ × Constant :=
  (withCtors M).1.getOrInsertFunction "__cxa_finalize" wasmDtorsType

lemma withDtors_keeps (M : Module ι τ) :
    M.functions <+: (withDtors M).1.functions ∧ Agrees M (withDtors M).1 := by
  obtain ⟨hfirst, hctors⟩ :=
    getOrInsertFunction_keeps M "__wasm_call_ctors" wasmCtorsType
  obtain ⟨hsecond, hdtors⟩ :=
    getOrInsertFunction_keeps (withCtors M).1 "__cxa_finalize" wasmDtorsType
  refine ⟨hfirst.trans hsecond, ?_, ?_⟩
  · exact (hdtors _ _ fun heq => absurd heq (by decide)).trans (hctors _ _ fun _ => rfl)
  · exact (hdtors _ _ fun _ => rfl).trans (hctors _ _ fun heq => absurd heq (by decide))

lemma withCtors_fits_dtors :
    (withCtors M).1.Fits "__cxa_finalize" wasmDtorsType ↔ M.Fits "__cxa_finalize" wasmDtorsType :=
  (getOrInsertFunction_keeps M "__wasm_call_ctors" wasmCtorsType).2 _ _
    fun heq => absurd heq (by decide)

lemma isEntry_iff (hne : F.blocks ≠ []) :
    (F.attributes.contains "uosio_wasm_entry" = true ∨ F.name = "apply") ↔ IsEntry F := by
  rw [IsEntry, and_iff_right hne, List.contains_iff_mem]

lemma runOnFunction_entry (hne : F.blocks ≠ []) (h : IsEntry F) :
    runOnFunction M F = do
      let c ← createCall (withCtors M).2 []
      let F' ← (F.insertEntry c).insertReturns (withDtors M).2
      return ((withDtors M).1, F', true) :=
  if_pos ((isEntry_iff hne).mpr h)

lemma runOnFunction_other (hne : F.blocks ≠ []) (h : ¬ IsEntry F) :
    runOnFunction M F = some (M, F, false) :=
  if_neg (mt (isEntry_iff hne).mp h)

/-- The calls of the constructors and of the destructors are made. -/
lemma exists_calls (h : Callable M F) (hne : F.blocks ≠ []) (hentry : IsEntry F) :
    ∃ c d F', c.callee = "__wasm_call_ctors" ∧ c.args = [] ∧
      d.callee = "__cxa_finalize" ∧ d.args = [0] ∧ Inserted F F' c d ∧
      runOnFunction M F = some ((withDtors M).1, F', true) := by
  obtain ⟨c, hc, hcallee, hargs⟩ := getOrInsertFunction_call (h.ctors hentry) []
  have hrun := runOnFunction_entry (M := M) hne hentry
  rw [withCtors, hc] at hrun
  by_cases hret : F.Returns
  · obtain ⟨d, hd, hcallee', hargs'⟩ :=
      getOrInsertFunction_call (withCtors_fits_dtors.mpr (h.dtors hentry hret)) [0]
    obtain ⟨F', hF', hins⟩ := exists_inserted (F := F) c hd
    refine ⟨c, d, F', hcallee, hargs, hcallee', hargs', hins, hrun.trans ?_⟩
    rw [withDtors, Option.bind_eq_bind, Option.bind_some, hF']
    rfl
  · obtain ⟨F', hF', hins⟩ :=
      exists_inserted_of_not_returns (withDtors M).2 c ⟨"__cxa_finalize", [0], 0⟩ hret
    refine ⟨c, _, F', hcallee, hargs, rfl, rfl, hins, hrun.trans ?_⟩
    rw [Option.bind_eq_bind, Option.bind_some, hF']
    rfl

lemma runOnFunction_spec (hne : F.blocks ≠ []) (h : Callable M F) :
    ∃ M' F' changed, runOnFunction M F = some (M', F', changed) ∧ Passed F F' ∧
      F'.global = F.global ∧ M.functions <+: M'.functions ∧ Agrees M M' := by
  by_cases hentry : IsEntry F
  · obtain ⟨c, d, F', hc, hc', hd, hd', hins, hrun⟩ := exists_calls h hne hentry
    obtain ⟨hkept, hagrees⟩ := withDtors_keeps M
    have hbracketed : Bracketed F F' c d :=
      ⟨⟨hc, hc'⟩, ⟨hd, hd'⟩, fun _ _ => (hins.brackets hne).path_iff⟩
    exact ⟨_, F', true, hrun, ⟨fun _ => ⟨c, d, hbracketed⟩, fun hnot => absurd hentry hnot⟩,
      hins.global_eq, hkept, hagrees⟩
  · exact ⟨M, F, false, runOnFunction_other hne hentry,
      ⟨fun his => absurd his hentry, fun _ => rfl⟩, rfl, List.prefix_rfl, Agrees.refl M⟩

lemma callable_of_runOnFunction {res : Module ι τ × Function ι τ × Bool} (hne : F.blocks ≠ [])
    (h : runOnFunction M F = some res) : Callable M F := by
  constructor
  · intro hentry
    by_contra hmiss
    rw [runOnFunction_entry hne hentry, withCtors, getOrInsertFunction_cast hmiss] at h
    cases h
  · intro hentry hret
    by_contra hmiss
    have hnone := getOrInsertFunction_cast (mt withCtors_fits_dtors.mp hmiss) [0]
    rw [runOnFunction_entry hne hentry] at h
    obtain ⟨c, -, h⟩ := Option.bind_eq_some_iff.mp h
    rw [withDtors, insertEntry_insertReturns_none c hnone hret] at h
    cases h

/-! ## The pass on a module -/

/-- The pass at one function leaves the others as they were. -/
lemma runAt_spec {i : ℕ} (hi : M.functions[i]? = some F) (h : Callable M F) :
    ∃ M', runAt M i = some M' ∧ Agrees M M' ∧
      (∃ F', M'.functions[i]? = some F' ∧ Passed F F') ∧
      ∀ j ≠ i, j < M.functions.length → M'.functions[j]? = M.functions[j]? := by
  have hlt : i < M.functions.length := (List.getElem?_eq_some_iff.mp hi).1
  by_cases hne : F.blocks = []
  · refine ⟨M, ?_, Agrees.refl M, ⟨F, hi, fun h => absurd hne h.1, fun _ => rfl⟩, fun _ _ _ => rfl⟩
    rw [runAt, hi]
    exact if_pos hne
  · obtain ⟨M', F', changed, hrun, hpassed, hglobal, hkept, hagrees⟩ := runOnFunction_spec hne h
    have hi' : M'.functions[i]? = some F :=
      (List.prefix_iff_getElem?.mp hkept i hlt).trans
        ((List.getElem?_eq_getElem hlt).symm.trans hi)
    refine ⟨{ M' with functions := M'.functions.set i F' }, ?_,
      hagrees.trans (agrees_of_getNamedValue (getNamedValue_set hi' hglobal)),
      ⟨F', List.getElem?_set_self (List.getElem?_eq_some_iff.mp hi').1, hpassed⟩, ?_⟩
    · rw [runAt, hi]
      refine (if_neg hne).trans ?_
      rw [hrun]
      rfl
    · intro j hj hjlt
      rw [List.getElem?_set_ne hj.symm]
      exact (List.prefix_iff_getElem?.mp hkept j hjlt).trans (List.getElem?_eq_getElem hjlt).symm

lemma callable_of_runAt {i : ℕ} (hi : M.functions[i]? = some F) (h : runAt M i = some M') :
    Callable M F := by
  by_cases hne : F.blocks = []
  · exact ⟨fun hentry => absurd hne hentry.1, fun hentry => absurd hne hentry.1⟩
  · rw [runAt, hi] at h
    obtain ⟨res, hres, -⟩ := Option.bind_eq_some_iff.mp ((if_neg hne).symm.trans h)
    exact callable_of_runOnFunction hne hres

lemma foldlM_range_succ (M : Module ι τ) (n : ℕ) :
    (List.range (n + 1)).foldlM runAt M =
      (List.range n).foldlM runAt M >>= fun M' => runAt M' n := by
  rw [List.range_succ, List.foldlM_append]
  congr 1
  funext M'
  exact bind_pure _

/-- The first `n` functions are done, the others are as they were. -/
lemma foldlM_runAt {n : ℕ} (hn : n ≤ M.functions.length)
    (h : ∀ i < n, ∀ F, M.functions[i]? = some F → Callable M F) :
    ∃ M', (List.range n).foldlM runAt M = some M' ∧ Agrees M M' ∧
      ∀ i F, M.functions[i]? = some F →
        (i < n → ∃ F', M'.functions[i]? = some F' ∧ Passed F F') ∧
        (n ≤ i → M'.functions[i]? = some F) := by
  induction n with
  | zero =>
    refine ⟨M, rfl, Agrees.refl M, fun i F hi => ⟨fun h => ?_, fun _ => hi⟩⟩
    exact absurd h (Nat.not_lt_zero i)
  | succ n ih =>
    obtain ⟨M₁, hloop, hagrees, hM₁⟩ :=
      ih (Nat.le_of_succ_le hn) fun i hi => h i (Nat.lt_succ_of_lt hi)
    -- the function that is next is still as it was
    have hnext := List.getElem?_eq_getElem hn
    have hG := (hM₁ n _ hnext).2 (Nat.le_refl n)
    obtain ⟨M', hrun, hagrees', hpassed, hothers⟩ :=
      runAt_spec hG (hagrees.callable_iff.mpr (h n (Nat.lt_succ_self n) _ hnext))
    refine ⟨M', ?_, hagrees.trans hagrees', fun i F hi => ?_⟩
    · rw [foldlM_range_succ, hloop]
      exact hrun
    by_cases hin : i = n
    · subst hin
      obtain rfl := Option.some.inj (hnext.symm.trans hi)
      exact ⟨fun _ => hpassed, fun h => absurd h (Nat.not_succ_le_self i)⟩
    · obtain ⟨hdone, hleft⟩ := hM₁ i F hi
      constructor
      · intro hlt
        obtain ⟨F', hF', hpassed'⟩ := hdone (by omega)
        exact ⟨F', (hothers i hin (List.getElem?_eq_some_iff.mp hF').1).trans hF', hpassed'⟩
      · intro hle
        have hF := hleft (by omega)
        exact (hothers i hin (List.getElem?_eq_some_iff.mp hF).1).trans hF

/-- If the pass gets through the first `n` functions, it can make their calls. -/
lemma callable_of_foldlM {n : ℕ} (hn : n ≤ M.functions.length)
    (h : (List.range n).foldlM runAt M = some M') :
    ∀ i < n, ∀ F, M.functions[i]? = some F → Callable M F := by
  induction n generalizing M' with
  | zero => exact fun i hi => absurd hi (Nat.not_lt_zero i)
  | succ n ih =>
    rw [foldlM_range_succ] at h
    obtain ⟨M₁, hloop, hrun⟩ := Option.bind_eq_some_iff.mp h
    have hcallable := ih (Nat.le_of_succ_le hn) hloop
    obtain ⟨M₂, hloop', hagrees, hM₂⟩ := foldlM_runAt (Nat.le_of_succ_le hn) hcallable
    obtain rfl := Option.some.inj (hloop.symm.trans hloop')
    intro i hi F hF
    obtain hlt | rfl := Nat.lt_succ_iff_lt_or_eq.mp hi
    · exact hcallable i hlt F hF
    · have hG := (hM₂ i F hF).2 (Nat.le_refl i)
      exact hagrees.callable_iff.mp (callable_of_runAt hG hrun)

/-- Behind the pass, every path of an entry function runs a call of `__wasm_call_ctors`, a path of
the function before the pass, a call of `__cxa_finalize` and the return, all these are paths, and
the other functions are as they were, exactly when the pass can make its calls. -/
theorem runOnModule_brackets_iff (M : Module ι τ) :
    (∃ M', runOnModule M = some M' ∧ ∀ (i : ℕ) F, M.functions[i]? = some F →
      ∃ F', M'.functions[i]? = some F' ∧ Passed F F') ↔ ∀ F ∈ M.functions, Callable M F := by
  constructor
  · rintro ⟨M', hrun, -⟩ F hF
    obtain ⟨i, hi⟩ := List.mem_iff_getElem?.mp hF
    exact callable_of_foldlM (Nat.le_refl _) hrun i (List.getElem?_eq_some_iff.mp hi).1 F hi
  · intro h
    obtain ⟨M', hrun, -, hM'⟩ :=
      foldlM_runAt (Nat.le_refl _) fun i _ F hi => h F (List.mem_of_getElem? hi)
    refine ⟨M', hrun, fun i F hi => ?_⟩
    exact (hM' i F hi).1 (List.getElem?_eq_some_iff.mp hi).1

/-- This module declares `__cxa_finalize` with a pointer, as the C library defines it. -/
theorem exists_cast_callee :
    let apply : Function Unit Unit :=
      ⟨"apply", [], ⟨.void, [.other 64, .other 64, .other 64], false⟩, 0, 0, [⟨[], .ret ()⟩],
        by decide⟩
    let finalize : Function Unit Unit :=
      ⟨"__cxa_finalize", [], ⟨.void, [.other 0], false⟩, 0, 0, [], by decide⟩
    let M : Module Unit Unit := ⟨[apply, finalize], []⟩
    runOnModule M = none ∧
      ¬ ∃ M', runOnModule M = some M' ∧ ∀ (i : ℕ) F, M.functions[i]? = some F →
        ∃ F', M'.functions[i]? = some F' ∧ Passed F F' := by
  refine ⟨rfl, ?_⟩
  rintro ⟨M', hrun, -⟩
  cases hrun

end UosioCdt.Passes
