import UosioCdt.Contracts.ActionWrapperTheorems
import UosioCdt.Dispatch.Routing
import UosioCdt.Tools.CodegenTheorems
import UosioCdt.Tools.NameTheorems

/-!
# Delivery of an inline action

The way of an action from `action_wrapper::send` over the packed bytes, the generated `apply` and
the stub to the handler. A `Contract` is what the tool chain makes of a contract's translation
units. The dispatcher of `UOSIO_DISPATCH` is compared with the generated one.
-/

namespace UosioCdt.Contracts

open UosioCdt.Core UosioCdt.Dispatch UosioCdt.Tools UosioCdt.Tools.Codegen

/-! ## Names of entries -/

lemma not_colon_of_ofString {str : Str} {n : Name} (h : Name.ofString str = .ok n) : ':' ∉ str := by
  intro hmem
  exact absurd ((Name.ofString_ok_iff.mp h).1.2.1 ':' hmem) (by decide)

lemma stringToName_of_ofString {str : Str} {n : Name} (h : Name.ofString str = .ok n) :
    stringToName str = n.value := by
  obtain ⟨haccepted, rfl⟩ := Name.ofString_ok_iff.mp h
  exact stringToName_eq haccepted

lemma beforeColon_append {name : Str} (h : ':' ∉ name) (func : Str) :
    beforeColon (name ++ ':' :: func) = name := by
  induction name with
  | nil => simp [beforeColon]
  | cons x name ih =>
    simp only [List.mem_cons, not_or] at h
    simpa [beforeColon, Ne.symm h.1] using ih h.2

/-! ## Contracts -/

section contract

variable {μ : Type}

/-- What the attribute of a stub says. -/
def stubEntry (M : Methods μ) (funcName : Str) (s : Stub μ) : Str :=
  actionEntry s.str (stubName M funcName s.method)

/-- The object file of a translation unit. -/
def objFile (M : Methods μ) (hasUosiolib : Bool) (decls : List (CXXMethodDecl μ)) : ObjFile where
  uosioActions := (visitAll M hasUosiolib decls).actions.stubs.map
    (stubEntry M "__uosio_action_".toList)
  uosioNotify := (visitAll M hasUosiolib decls).notifies.stubs.map
    (stubEntry M "__uosio_notify_".toList)

/-- A contract with its object files, linked to a valid dispatcher. -/
structure Contract (μ : Type) where
  methods : Methods μ
  hasUosiolib : Bool
  units : List (List (CXXMethodDecl μ))
  params : μ → List Param
  linker : Linker
  env : Env
  content : List UInt8
  objectFiles_eq : linker.objectFiles = units.map (objFile methods hasUosiolib)
  linkable : Linkable linker
  validEntries : ValidEntries linker
  conforms : Conforms linker env
  content_eq : bodyContent linker = .ok content
  validBody : ValidBody content

/-- The stubs of the actions. -/
def Contract.actionStubs (c : Contract μ) : List (Stub μ) :=
  c.units.flatMap fun decls => (visitAll c.methods c.hasUosiolib decls).actions.stubs

/-- The function of the stub of a method. -/
def Contract.actionIndex (c : Contract μ) (m : μ) : Option UInt32 :=
  c.linker.find (stubName c.methods "__uosio_action_".toList m)

/-- The run of `apply` follows the route. -/
def Contract.Follows (c : Contract μ) (p : Params) (r : Route) : Prop :=
  ∃ o, execBody c.env p c.content = some o ∧ Routed c.linker p r ⟨[], []⟩ o

/-- `UOSIO_DISPATCH`: the member that is called, if any. -/
def uosioDispatch (M : Methods μ) (members : List μ) (p : Params) : Option μ :=
  if p.code = p.receiver then
    members.find? fun elem => match Name.ofString (M.nameAsString elem) with
      | .ok n => n.value = p.action
      | .error _ => false
  else none

/-! ## The action of a stub -/

namespace Contract

variable {c : Contract μ} {s : Stub μ}

lemma mem_linker_actions {e : Str} : e ∈ c.linker.actions ↔
    ∃ s ∈ c.actionStubs, stubEntry c.methods "__uosio_action_".toList s = e := by
  rw [mem_actions, c.objectFiles_eq]
  simp only [actionStubs, List.mem_map, List.mem_flatMap]
  constructor
  · rintro ⟨_, ⟨decls, hdecls, rfl⟩, he⟩
    obtain ⟨s, hs, rfl⟩ := List.mem_map.mp he
    exact ⟨s, ⟨decls, hdecls, hs⟩, rfl⟩
  · rintro ⟨s, ⟨decls, hdecls, hs⟩, rfl⟩
    exact ⟨_, ⟨decls, hdecls, rfl⟩, List.mem_map_of_mem hs⟩

/-- The run follows the route that the entries say. -/
lemma follows_expectedRoute {p : Params} (hp : p.code = p.receiver) :
    c.Follows p (expectedRoute c.linker p) := by
  obtain ⟨o, hexec, hrouted⟩ := exec_takenRoute c.linkable c.conforms c.content_eq c.validBody p
  have hbal := c.linkable.balanced_of_valid c.content_eq c.validBody
  have hexpected : takenRoute c.linker p = expectedRoute c.linker p :=
    (takenRoute_eq_iff hbal c.validEntries p).mpr fun hshadowed => hshadowed.1 hp
  exact ⟨o, hexec, hexpected ▸ hrouted⟩

/-- The parts of the entry of a stub. -/
lemma stubEntry_parts (M : Methods μ) (funcName : Str) {n : Name}
    (h : Name.ofString s.str = .ok n) :
    beforeColon (stubEntry M funcName s) = s.str ∧
      afterColon (stubEntry M funcName s) = stubName M funcName s.method :=
  ⟨beforeColon_append (not_colon_of_ofString h) _, afterColon_append (not_colon_of_ofString h) _⟩

/-- The contract routes a call of one of its actions to the function of its stub. -/
lemma follows_handler (hs : s ∈ c.actionStubs) {n : Name} (hname : Name.ofString s.str = .ok n)
    {p : Params} (hp : p.code = p.receiver) (hn : p.action = n.value) :
    ∃ i, c.actionIndex s.method = some i ∧ c.Follows p (.handler i) := by
  have hmem : stubEntry c.methods "__uosio_action_".toList s ∈ c.linker.actions :=
    mem_linker_actions.mpr ⟨s, hs, rfl⟩
  obtain ⟨hbefore, hafter⟩ := stubEntry_parts c.methods "__uosio_action_".toList hname
  obtain ⟨i, hi⟩ := Option.isSome_iff_exists.mp (c.linkable.action_found hmem)
  rw [hafter] at hi
  have hindex : c.linker.index (stubEntry c.methods "__uosio_action_".toList s) = i := by
    rw [Linker.index, hafter, hi, Option.getD_some]
  have hfor : c.linker.actionFor p.action
      = some (stubEntry c.methods "__uosio_action_".toList s) := by
    refine c.validEntries.actionFor_eq_some_iff.mpr ⟨hmem, ?_⟩
    rw [hbefore, stringToName_of_ofString hname, hn]
  refine ⟨i, hi, ?_⟩
  have hroute := c.follows_expectedRoute hp
  rw [expectedRoute, if_pos hp, hfor] at hroute
  exact hindex ▸ hroute

end Contract

end contract

/-! ## Packed actions -/

lemma length_data_le (account name : Name) (perms : List permissionLevel.Val)
    (data : List UInt8) :
    data.length ≤ (action.serialize (account, name, perms, data, ())).length := by
  have hdata := length_le_bytes data
  change _ ≤ ((Ty.field .name (.field .name (.field (.seq .vector permissionLevel)
    (.field .bytes .empty)))).serialize (account, name, perms, data, ())).length
  rw [serialize_field, serialize_field, serialize_field, serialize_field]
  simp only [List.length_append]
  omega

/-- What is sent is unpacked again. -/
lemma send_unpack (lt : KeyOrder) {ps : List Param} (w : ActionWrapper ps)
    {args : (deduced ps).Val}
    (h : (action.serialize (w.codeName, w.actionName, w.permissions,
      (deduced ps).serialize args, ())).length < 2 ^ 31) :
    ∃ bytes, w.send args = some bytes ∧ action.unpack lt bytes =
      some (w.codeName, w.actionName, w.permissions, (deduced ps).serialize args, ()) := by
  have hdata := (length_data_le _ _ _ _).trans_lt h
  refine ⟨action.serialize (w.codeName, w.actionName, w.permissions,
    (deduced ps).serialize args, ()), ?_, ?_⟩
  · rw [ActionWrapper.send, ActionWrapper.toAction, Ty.pack_eq hdata]
    exact Ty.pack_eq h
  · exact unpack_serialize (Ty.proper_of_length rfl h)

/-! ## Delivery -/

variable {μ : Type}

/-- An inline action that a wrapper of a method sends is unpacked by the host with its payload. The
contract it is sent to calls the stub of the method and no other handler, and the stub hands over
the arguments with the ignored ones in the datastream. -/
theorem send_delivered (c : Contract μ) (s : Stub μ) (hs : s ∈ c.actionStubs)
    (w : ActionWrapper (c.params s.method)) (hname : Name.ofString s.str = .ok w.actionName)
    (lt : KeyOrder) (args : (deduced (c.params s.method)).Val)
    (hproper : (deduced (c.params s.method)).Proper lt args)
    (hlast : IgnoredLast (c.params s.method))
    (hsize : (action.serialize (w.codeName, w.actionName, w.permissions,
      (deduced (c.params s.method)).serialize args, ())).length < 2 ^ 31) :
    ∃ bytes data i, w.send args = some bytes ∧
      action.unpack lt bytes = some (w.codeName, w.actionName, w.permissions, data, ()) ∧
      c.actionIndex s.method = some i ∧
      c.Follows ⟨w.codeName.value, w.codeName.value, w.actionName.value⟩ (.handler i) ∧
      ∀ h memory, h.bytes = data → ∃ ds,
        runStub lt (c.params s.method) h memory = some ⟨handlerArgs _ args, ds⟩ ∧
        (tuple (ignoredTypes (c.params s.method))).unpack lt ds = some (ignoredArgs _ args) := by
  obtain ⟨bytes, hsend, hunpack⟩ := send_unpack lt w hsize
  obtain ⟨i, hi, hfollows⟩ := Contract.follows_handler hs hname
    (p := ⟨w.codeName.value, w.codeName.value, w.actionName.value⟩) rfl rfl
  refine ⟨bytes, _, i, hsend, hunpack, hi, hfollows, fun h memory hbytes => ?_⟩
  refine ⟨(tuple (ignoredTypes (c.params s.method))).serialize (ignoredArgs _ args), ?_, ?_⟩
  · rw [(runStub_eq lt _ h memory).2, hbytes, readArgs_serialize hlast hproper]
    rfl
  · exact unpack_serialize (proper_ignoredArgs hproper)

/-! ## `UOSIO_DISPATCH` -/

/-- A contract whose actions are the members of a `UOSIO_DISPATCH`, under their own names: on a call
of the contract itself the macro calls a member exactly when the generated dispatcher calls its
stub, and both hand over the same. Without a member the generated dispatcher asserts. -/
theorem uosioDispatch_agrees (c : Contract μ) (members : List μ)
    (hmembers : ∀ m name, (∃ s ∈ c.actionStubs, s.method = m ∧ s.str = name) ↔
      m ∈ members ∧ c.methods.nameAsString m = name)
    (hnames : ∀ m ∈ members, ∃ n, Name.ofString (c.methods.nameAsString m) = .ok n)
    (p : Params) (hp : p.code = p.receiver) :
    (∀ m, uosioDispatch c.methods members p = some m → ∃ i, c.actionIndex m = some i ∧
      c.Follows p (.handler i) ∧ ∀ lt h memory,
        runStub lt (c.params m) h memory = executeAction lt (c.params m) h memory) ∧
    (uosioDispatch c.methods members p = none →
      c.Follows p (if p.receiver = stringToName uosioName then .nothing
        else .assertCode UOSIO_ERROR_NO_ACTION)) := by
  constructor
  · intro m hm
    rw [uosioDispatch, if_pos hp] at hm
    obtain ⟨n, hn⟩ := hnames m (List.mem_of_find?_eq_some hm)
    have haction := List.find?_some hm
    simp only [hn, decide_eq_true_eq] at haction
    obtain ⟨s, hs, rfl, hstr⟩ := (hmembers m _).mpr ⟨List.mem_of_find?_eq_some hm, rfl⟩
    rw [← hstr] at hn
    obtain ⟨i, hi, hfollows⟩ := Contract.follows_handler hs hn hp haction.symm
    exact ⟨i, hi, hfollows, fun lt h memory => (runStub_eq lt _ h memory).1⟩
  · intro hnone
    rw [uosioDispatch, if_pos hp, List.find?_eq_none] at hnone
    have hfor : c.linker.actionFor p.action = none := by
      rw [Linker.actionFor, List.find?_eq_none]
      intro e he hname
      obtain ⟨s, hs, rfl⟩ := Contract.mem_linker_actions.mp he
      obtain ⟨hmem, hstr⟩ := (hmembers s.method s.str).mp ⟨s, hs, rfl, rfl⟩
      obtain ⟨n, hn⟩ := hnames _ hmem
      have hnot := hnone _ hmem
      simp only [hn, decide_eq_true_eq] at hnot
      rw [hstr] at hn
      rw [(Contract.stubEntry_parts c.methods _ hn).1, decide_eq_true_eq,
        stringToName_of_ofString hn] at hname
      exact hnot hname
    have hroute := c.follows_expectedRoute hp
    rwa [expectedRoute, if_pos hp, hfor] at hroute

/-! ## A token -/

/-- The method `transfer` of the token is an action. -/
def transferDecl : CXXMethodDecl (Fin 2) := ⟨Fin.last _, .action "transfer".toList⟩

/-- The object files of the token. -/
def tokenLinker : Linker where
  objectFiles := [objFile tokenMethods false [transferDecl]]
  find name := [(uosioAssertCode, 0), ("__uosio_action_transfer_token".toList, 1)].lookup name
  symbolCount := 2

/-- Handlers return. -/
def tokenEnv : Env := fun i =>
  { arity := 2, run := fun _ args =>
      if i = 0 ∧ args.head? = some (.i32 0) then .trap else .ret [] }

lemma tokenLinker_linkable : Linkable tokenLinker where
  assertFound := ⟨0, by decide, by decide⟩
  actions := by
    intro f hf e he
    obtain rfl : f = tokenLinker.objectFiles.head (by decide) := by
      simpa [tokenLinker] using hf
    obtain rfl : e = "transfer:__uosio_action_transfer_token".toList := by
      have hlist : (tokenLinker.objectFiles.head (by decide)).uosioActions
          = ["transfer:__uosio_action_transfer_token".toList] := by decide
      rwa [hlist, List.mem_singleton] at he
    exact ⟨"transfer".toList, "__uosio_action_transfer_token".toList, by decide, by decide,
      by decide⟩
  notifies := by
    intro f hf e he
    obtain rfl : f = tokenLinker.objectFiles.head (by decide) := by
      simpa [tokenLinker] using hf
    have hlist : (tokenLinker.objectFiles.head (by decide)).uosioNotify = [] := by decide
    rw [hlist] at he
    exact absurd he List.not_mem_nil

lemma tokenLinker_conforms : Conforms tokenLinker tokenEnv where
  handler := by
    intro i hi
    have hindices : tokenLinker.actions.map tokenLinker.index ++
        tokenLinker.notifies.map (fun e => tokenLinker.index (handlerOf e)) = [1] := by
      decide
    have hmem : i ∈ tokenLinker.actions.map tokenLinker.index ++
        tokenLinker.notifies.map (fun e => tokenLinker.index (handlerOf e)) := by
      simpa [Linker.isHandler] using hi
    rw [hindices, List.mem_singleton] at hmem
    subst hmem
    exact ⟨rfl, fun _ _ => .inl rfl⟩
  assertArity := by decide
  assertTraps := fun _ _ => rfl
  preArity := fun i hi => by cases (show none = some i from hi)
  preTrue := fun i hi => by cases (show none = some i from hi)
  post := fun i hi => by cases (show none = some i from hi)
  ctorsArity := fun i hi => by cases (show none = some i from hi)
  ctorsReturn := fun i hi => by cases (show none = some i from hi)
  dtors := fun i hi => by cases (show none = some i from hi)

/-- The token, with the parameters of `transfer`: an amount and an ignored memo. -/
def tokenContract : Contract (Fin 2) where
  methods := tokenMethods
  hasUosiolib := false
  units := [[transferDecl]]
  params _ := [.value (.prim (.int 4)), .ignore .string]
  linker := tokenLinker
  env := tokenEnv
  content := Leb128.encodeU 0 ++ (bodyInstrs tokenLinker).flatMap encodeInstr
  objectFiles_eq := rfl
  linkable := tokenLinker_linkable
  validEntries := {
    actionName := by decide
    notifyCode := by decide
    notifyAction := by decide
    distinctActions := by decide
    distinctNotifies := by decide }
  conforms := tokenLinker_conforms
  content_eq := by
    rw [bodyContent, tokenLinker_linkable.dispatchInstrs_eq]
    rfl
  validBody := (validBody_encode_iff (bodyInstrs tokenLinker)).mpr (by decide)

/-- The stub of `transfer`. -/
def transferStub : Stub (Fin 2) :=
  ⟨Fin.last _, "transfer".toList, stubText tokenMethods false "uosio_wasm_action".toList
    "__uosio_action_".toList "transfer".toList (Fin.last _)⟩

lemma mem_actionStubs_token {s : Stub (Fin 2)} : s ∈ tokenContract.actionStubs ↔ s = transferStub :=
  List.mem_singleton

/-- A transfer of 7 with a memo of one byte. -/
theorem send_delivered_token :
    ∃ bytes data i, (⟨⟨14829575313431724032⟩, ⟨3773036822876127232⟩, []⟩ :
        ActionWrapper (tokenContract.params 1)).send (7#32, [0x41], ()) = some bytes ∧
      action.unpack unsignedOrder bytes
        = some (⟨3773036822876127232⟩, ⟨14829575313431724032⟩, [], data, ()) ∧
      tokenContract.actionIndex 1 = some i ∧
      tokenContract.Follows ⟨3773036822876127232, 3773036822876127232, 14829575313431724032⟩
        (.handler i) ∧
      ∀ h memory, h.bytes = data → ∃ ds,
        runStub unsignedOrder (tokenContract.params 1) h memory
          = some ⟨(7#32, (), ()), ds⟩ ∧
        (tuple (ignoredTypes (tokenContract.params 1))).unpack unsignedOrder ds
          = some ([0x41], ()) :=
  send_delivered tokenContract transferStub (mem_actionStubs_token.mpr rfl)
    ⟨⟨14829575313431724032⟩, ⟨3773036822876127232⟩, []⟩ (by rfl) unsignedOrder (7#32, [0x41], ())
    ⟨trivial, (by decide : 1 < 2 ^ 32), trivial⟩ (fun _ h => absurd h List.not_mem_nil)
    (by decide)

/-- The token with the macro. -/
theorem uosioDispatch_agrees_token :
    (∀ m, uosioDispatch tokenMethods [1] ⟨7, 7, 14829575313431724032⟩ = some m →
      ∃ i, tokenContract.actionIndex m = some i ∧
        tokenContract.Follows ⟨7, 7, 14829575313431724032⟩ (.handler i) ∧ ∀ lt h memory,
        runStub lt (tokenContract.params m) h memory
          = executeAction lt (tokenContract.params m) h memory) ∧
    (uosioDispatch tokenMethods [1] ⟨7, 7, 14829575313431724032⟩ = none →
      tokenContract.Follows ⟨7, 7, 14829575313431724032⟩ (if 7 = stringToName uosioName then .nothing
        else .assertCode UOSIO_ERROR_NO_ACTION)) := by
  refine uosioDispatch_agrees tokenContract [1] (fun m name => ?_) (fun m hm => ?_) _ rfl
  · simp only [mem_actionStubs_token, exists_eq_left, List.mem_singleton]
    constructor
    · rintro ⟨rfl, rfl⟩
      exact ⟨rfl, rfl⟩
    · rintro ⟨rfl, rfl⟩
      exact ⟨rfl, rfl⟩
  · rw [List.mem_singleton] at hm
    exact hm ▸ ⟨_, rfl⟩

end UosioCdt.Contracts
