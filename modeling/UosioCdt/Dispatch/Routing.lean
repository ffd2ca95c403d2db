import UosioCdt.Dispatch.Route

/-!
# The dispatcher routes every call

What the called functions are assumed to do (`Conforms`), the calls of a run that follows a route
(`Routed`), and the result: running a structurally valid body follows `expectedRoute`, except on
the shadowed notifications.
-/

namespace UosioCdt.Dispatch

open StructuredCode Tools

/-! ## The called functions -/

/-- A function without results. -/
structure Callee.IsVoid (f : Callee) (arity : ℕ) : Prop where
  arity_eq : f.arity = arity
  run_eq : ∀ calls args, f.run calls args = .ret [] ∨ f.run calls args = .trap

/-- The called functions have the types of their declarations, `uosio_assert_code(false, _)` aborts,
the constructors return and `pre_dispatch` returns true. -/
structure Conforms (L : Linker) (env : Env) : Prop where
  handler : ∀ i, L.isHandler i = true → (env i).IsVoid 2
  assertArity : (env L.assertIdx).arity = 2
  assertTraps : ∀ calls code, (env L.assertIdx).run calls [.i32 0, .i64 code] = .trap
  preArity : ∀ i, L.find preDispatch = some i → (env i).arity = 3
  preTrue : ∀ i, L.find preDispatch = some i → ∀ calls args, ∃ v, v ≠ 0 ∧
    (env i).run calls args = .ret [.i32 v]
  post : ∀ i, L.find postDispatch = some i → (env i).IsVoid 3
  ctorsArity : ∀ i, L.find wasmCallCtors = some i → i ≠ 0 → (env i).arity = 0
  ctorsReturn : ∀ i, L.find wasmCallCtors = some i → i ≠ 0 →
    ∀ calls args, (env i).run calls args = .ret []
  dtors : ∀ i, L.find cxaFinalize = some i → i ≠ 0 → i.toNat < L.symbolCount → (env i).IsVoid 1

/-- Handlers and `uosio_assert_code` take two arguments. -/
lemma Conforms.not_target {L : Linker} {env : Env} (h : Conforms L env) {i : UInt32}
    (hi : (env i).arity ≠ 2) : L.isTarget i = false := by
  by_contra htarget
  rw [Bool.not_eq_false, Linker.isTarget, Bool.or_eq_true, decide_eq_true_eq] at htarget
  rcases htarget with hhandler | rfl
  · exact hi (h.handler i hhandler).arity_eq
  · exact hi h.assertArity

/-! ## Runs that follow a route -/

/-- The outcome of a run from `s` that follows the route: of the handlers and `uosio_assert_code`,
it calls those of the route in their order and no other. It may trap, and does on an assertion. -/
def Routed (L : Linker) (p : Params) (r : Route) (s : State) (o : Outcome State) : Prop :=
  ∃ made stack, made.filter (fun c => L.isTarget c.index) = r.calls L p ∧
    (o = .trap ⟨stack, s.calls ++ made⟩ ∨
      (o = .done ⟨s.stack, s.calls ++ made⟩ ∧ ∀ code, r ≠ .assertCode code))

section routed

variable {L : Linker} {env : Env} {p : Params}

/-- A run follows one route. -/
lemma Routed.unique {r r' : Route} {s : State} {o : Outcome State} (h : Routed L p r s o)
    (h' : Routed L p r' s o) : r = r' := by
  obtain ⟨made, stack, hmade, ho⟩ := h
  obtain ⟨made', stack', hmade', ho'⟩ := h'
  have heq : made = made' := by
    rcases ho with rfl | ⟨rfl, -⟩ <;> rcases ho' with ho' | ⟨ho', -⟩ <;> simp_all
  exact Route.calls_injective L p (by rw [← hmade, ← hmade', heq])

lemma routed_done (s : State) : Routed L p .nothing s (.done s) :=
  ⟨[], [], rfl, .inr ⟨by simp, by simp⟩⟩

/-- What follows a route and calls no handler leaves the route. Nothing follows an assertion. -/
lemma Routed.andThen {r : Route} {s : State} {o : Outcome State} {k : State → Outcome State}
    (h : Routed L p r s o)
    (hk : (∀ code, r ≠ .assertCode code) → ∀ s', Routed L p .nothing s' (k s')) :
    Routed L p r s (o.andThen k) := by
  obtain ⟨made, stack, hmade, rfl | ⟨rfl, hr⟩⟩ := h
  · exact ⟨made, stack, hmade, .inl rfl⟩
  · obtain ⟨made', stack', hmade', ho⟩ := hk hr ⟨s.stack, s.calls ++ made⟩
    refine ⟨made ++ made', stack', ?_, ?_⟩
    · rw [List.filter_append, hmade, hmade', Route.calls, List.append_nil]
    · rw [← List.append_assoc]
      exact ho.imp id fun h => ⟨h.1, hr⟩

/-- A call in front that is no target does not count. -/
lemma Routed.behind {r : Route} {s : State} {o : Outcome State} {c : Call}
    (hc : L.isTarget c.index = false) (h : Routed L p r ⟨s.stack, s.calls ++ [c]⟩ o) :
    Routed L p r s o := by
  obtain ⟨made, stack, hmade, ho⟩ := h
  refine ⟨c :: made, stack, ?_, ?_⟩
  · rw [List.filter_cons_of_neg (by simp [hc]), hmade]
  · simpa [List.append_assoc] using ho

lemma routed_handler (hconf : Conforms L env) {i : UInt32} (hi : L.isHandler i = true) (s : State) :
    Routed L p (.handler i) s (invoke env i [.i64 p.receiver, .i64 p.code] s) := by
  have htarget : L.isTarget i = true := by simp [Linker.isTarget, hi]
  refine ⟨[⟨i, [.i64 p.receiver, .i64 p.code]⟩], s.stack, ?_, ?_⟩
  · simp [htarget, Route.calls]
  · rcases (hconf.handler i hi).run_eq s.calls [.i64 p.receiver, .i64 p.code] with h | h <;>
      simp [invoke, h]

lemma routed_assertCode (hconf : Conforms L env) (code : UInt64) (s : State) :
    Routed L p (.assertCode code) s (invoke env L.assertIdx [.i32 0, .i64 code] s) := by
  have htarget : L.isTarget L.assertIdx = true := by simp [Linker.isTarget]
  refine ⟨[⟨L.assertIdx, [.i32 0, .i64 code]⟩], s.stack, ?_, ?_⟩
  · simp [htarget, Route.calls]
  · simp [invoke, hconf.assertTraps]

/-- A void function that is no target. -/
lemma routed_hook (hconf : Conforms L env) {i : UInt32} {n : ℕ} (hi : (env i).IsVoid n) (hn : n ≠ 2)
    (args : List Val) (s : State) : Routed L p .nothing s (invoke env i args s) := by
  refine ⟨[⟨i, args⟩], s.stack, ?_, ?_⟩
  · simp [hconf.not_target (hi.arity_eq ▸ hn), Route.calls]
  · rcases hi.run_eq s.calls args with h | h <;> simp [invoke, h]

/-- The chain of a list of handlers follows its route. -/
lemma routed_chain (hconf : Conforms L env) {strs : List Str}
    (h : ∀ str ∈ strs, L.isHandler (L.index str) = true) (s : State) {e : Outcome State}
    {r : Route} (he : Routed L p r s e) :
    Routed L p (match selected p strs with
        | some str => .handler (L.index str)
        | none => r) s
      (match selected p strs with
        | some str => callHandler env L p str s
        | none => e) := by
  cases hsel : selected p strs with
  | some str => exact routed_handler hconf (h str (List.mem_of_find?_eq_some hsel)) s
  | none => exact he

lemma Conforms.chain_arity (hconf : Conforms L env) {strs : List Str}
    (h : ∀ str ∈ strs, L.isHandler (L.index str) = true) :
    ∀ str ∈ strs, (env (L.index str)).arity = 2 :=
  fun str hstr => (hconf.handler _ (h str hstr)).arity_eq

lemma isHandler_get {code : Str} :
    ∀ str ∈ MultiMap.get L.handlers code, L.isHandler (L.index str) = true := by
  intro str hstr
  rw [L.get_handlers, List.mem_map] at hstr
  obtain ⟨e, he, rfl⟩ := hstr
  exact Linker.isHandler_notify (List.mem_of_mem_filter he)

/-! ## The parts of the body -/

/-- The hook behind a chain. -/
lemma routed_post (hconf : Conforms L env) {postIdx : UInt32}
    (hpost : L.find postDispatch = some postIdx) (s : State) :
    Routed L p .nothing s (execBlock env p (ops (pushParams ++ [.call postIdx]) .nil) s) := by
  rw [exec_hook (hconf.post postIdx hpost).arity_eq, andThen_exec_nil]
  exact routed_hook hconf (hconf.post postIdx hpost) (by decide) _ s

/-- What the action dispatcher does without an entry for the action. -/
lemma routed_noAction (hconf : Conforms L env) (s : State) :
    Routed L p (if p.receiver = stringToName uosioName then .nothing
      else .assertCode UOSIO_ERROR_NO_ACTION) s (execBlock env p (noActionBlock L) s) := by
  have hassert := routed_assertCode (p := p) hconf UOSIO_ERROR_NO_ACTION s
  rw [← exec_assertCode UOSIO_ERROR_NO_ACTION hconf.assertArity] at hassert
  cases hpost : L.find postDispatch with
  | some postIdx =>
    simp only [noActionBlock, hpost]
    rw [exec_receiverTest, exec_ifElse, andThen_exec_nil]
    by_cases huosio : p.receiver = stringToName uosioName
    · simpa [huosio] using routed_post hconf hpost s
    · simpa [huosio, assertBlock] using hassert
  | none =>
    simp only [noActionBlock, hpost]
    rw [exec_receiverTest, exec_ifThen, andThen_exec_nil]
    by_cases huosio : p.receiver = stringToName uosioName
    · simpa [huosio] using routed_done s
    · simpa [huosio, assertBlock] using hassert

lemma routed_actions (hconf : Conforms L env) (s : State) :
    Routed L p (actionRoute L p) s
      (execBlock env p (chainBlock L L.actions (noActionBlock L)) s) := by
  have hhandler : ∀ str ∈ L.actions, L.isHandler (L.index str) = true :=
    fun _ => Linker.isHandler_action
  rw [exec_chainBlock _ _ (hconf.chain_arity hhandler)]
  exact routed_chain hconf hhandler s (routed_noAction hconf s)

/-- The assertion on `uosio::onerror`. -/
lemma exec_onerrorBlock (hassert : (env L.assertIdx).arity = 2) (s : State) :
    execBlock env p (onerrorBlock L) s =
      if hasOnerrorHandler L.handlers = false ∧ p.IsOnerror then
        invoke env L.assertIdx [.i32 0, .i64 UOSIO_ERROR_ONERROR] s
      else .done s := by
  unfold onerrorBlock
  split
  · rename_i hhandler
    simp [hhandler, execBlock, Block.run]
  · rename_i hhandler
    rw [Bool.not_eq_true] at hhandler
    rw [onerrorAssertBlock, exec_constTest _ rfl, exec_ifThen, andThen_exec_nil,
      exec_constTest _ rfl, exec_ifThen, andThen_exec_nil, exec_assertCode _ hassert]
    by_cases hcode : p.code = stringToName uosioName <;>
      by_cases haction : p.action = stringToName onerrorName <;>
      simp [Params.IsOnerror, hhandler, hcode, haction, Ne.symm]

/-- The notify handlers of a balanced contract. -/
lemma routed_notifyChain (hconf : Conforms L env) (hbal : L.Balanced) (s : State) :
    Routed L p
      (match specific L.handlers with
        | notif0 :: _ =>
          if p.code = stringToName notif0.1 then chainRoute L p notif0.2
          else chainRoute L p L.wildcards
        | [] => chainRoute L p L.wildcards) s
      (execBlock env p (notifyChain L) s) := by
  have hthen (code : Str) : Routed L p (chainRoute L p (MultiMap.get L.handlers code)) s
      (execBlock env p (chainThen L (MultiMap.get L.handlers code)) s) := by
    rw [exec_chainThen s (hconf.chain_arity isHandler_get)]
    exact routed_chain hconf isHandler_get s (routed_done s)
  rcases hbal.specific_cases with ⟨hnil, -⟩ | ⟨code, hone, -, -⟩
  · have hchain : notifyChain L = chainThen L L.wildcards := by
      unfold notifyChain
      split
      · simp_all
      · rfl
    rw [hnil, hchain]
    exact hthen ['*']
  · have hsome : L.find postDispatch ≠ none := by
      rw [ne_eq, hbal.post_eq_none_iff, hone]
      exact List.cons_ne_nil _ _
    obtain ⟨postIdx, hpost⟩ := Option.ne_none_iff_exists'.mp hsome
    simp only [notifyChain, hpost, hone]
    rw [exec_constTest _ rfl, exec_ifElse, andThen_exec_nil]
    by_cases hcode : p.code = stringToName code
    · simpa [hcode] using hthen code
    · have helse := exec_chainBlock (p := p) (ops (pushParams ++ [.call postIdx]) .nil) s
        (hconf.chain_arity (@isHandler_get L ['*']))
      rw [if_neg hcode, if_neg (by simpa using Ne.symm hcode), Linker.wildcards, helse]
      exact routed_chain hconf isHandler_get s (routed_post hconf hpost s)

lemma routed_notifies (hconf : Conforms L env) (hbal : L.Balanced) (s : State) :
    Routed L p (notifyRoute L p) s
      (execBlock env p ((onerrorBlock L).append (notifyChain L)) s) := by
  have happend : execBlock env p ((onerrorBlock L).append (notifyChain L)) s
      = (execBlock env p (onerrorBlock L) s).andThen (execBlock env p (notifyChain L)) :=
    Block.run_append ..
  rw [happend, exec_onerrorBlock hconf.assertArity, notifyRoute]
  split
  · exact (routed_assertCode hconf UOSIO_ERROR_ONERROR s).andThen fun h => absurd rfl (h _)
  · exact routed_notifyChain hconf hbal s

lemma routed_dtors (hconf : Conforms L env) (s : State) :
    Routed L p .nothing s (execBlock env p (dtorsBlock L) s) := by
  unfold dtorsBlock
  split
  · rename_i dtorsIdx hdtors
    split
    · rename_i hcalled
      have hvoid := hconf.dtors dtorsIdx hdtors hcalled.1 hcalled.2
      have hcall := exec_call (p := p) [.i32 0] .nil s hvoid.arity_eq.symm
      rw [andThen_exec_nil] at hcall
      exact hcall ▸ routed_hook hconf hvoid (by decide) [.i32 0] s
    · exact routed_done s
  · exact routed_done s

/-- The dispatcher behind `pre_dispatch`. -/
lemma routed_dispatch (hconf : Conforms L env) (hbal : L.Balanced) (s : State) :
    Routed L p (takenRoute L p) s (execBlock env p (dispatchBlock L) s) := by
  rw [dispatchBlock, exec_selfTest, exec_ifElse, takenRoute]
  by_cases hself : p.receiver = p.code
  · simpa [hself] using (routed_actions hconf s).andThen fun _ => routed_dtors hconf
  · simpa [hself, Ne.symm hself] using
      (routed_notifies hconf hbal s).andThen fun _ => routed_dtors hconf

lemma routed_pre (hconf : Conforms L env) (hbal : L.Balanced) (s : State) :
    Routed L p (takenRoute L p) s (execBlock env p (preBlock L) s) := by
  unfold preBlock
  split
  · rename_i preIdx hpre
    have harity := hconf.preArity preIdx hpre
    obtain ⟨v, hv, hrun⟩ := hconf.preTrue preIdx hpre s.calls
      [.i64 p.receiver, .i64 p.code, .i64 p.action]
    have htarget : L.isTarget preIdx = false := hconf.not_target (by rw [harity]; decide)
    refine Routed.behind (c := ⟨preIdx, [.i64 p.receiver, .i64 p.code, .i64 p.action]⟩) htarget ?_
    have hif := exec_ifThen_of_ne env p hv (dispatchBlock L) .nil
      ⟨s.stack, s.calls ++ [⟨preIdx, [.i64 p.receiver, .i64 p.code, .i64 p.action]⟩]⟩
    have hdispatch := routed_dispatch (p := p) hconf hbal
      ⟨s.stack, s.calls ++ [⟨preIdx, [.i64 p.receiver, .i64 p.code, .i64 p.action]⟩]⟩
    rw [andThen_exec_nil] at hif
    rw [← hif] at hdispatch
    rw [exec_hook harity, invoke, hrun]
    exact hdispatch
  · exact routed_dispatch hconf hbal s

/-- A balanced body follows its route. -/
theorem routed_body (hconf : Conforms L env) (hbal : L.Balanced) :
    Routed L p (takenRoute L p) ⟨[], []⟩ (execBlock env p (bodyBlock L) ⟨[], []⟩) := by
  unfold bodyBlock
  split
  · rename_i ctorsIdx hctors
    split
    · rename_i hcalled
      have harity := hconf.ctorsArity ctorsIdx hctors hcalled
      have htarget : L.isTarget ctorsIdx = false := hconf.not_target (by rw [harity]; decide)
      refine Routed.behind (c := ⟨ctorsIdx, []⟩) htarget ?_
      have hcall := exec_call (p := p) [] (preBlock L) ⟨[], []⟩ harity.symm
      rw [invoke, hconf.ctorsReturn ctorsIdx hctors hcalled] at hcall
      exact hcall ▸ routed_pre hconf hbal ⟨[], [⟨ctorsIdx, []⟩]⟩
    · exact routed_pre hconf hbal _
  · exact routed_pre hconf hbal _

end routed

/-! ## Running the body -/

lemma Linkable.balanced_of_valid {L : Linker} (h : Linkable L) {content : List UInt8}
    (hc : bodyContent L = .ok content) (hbody : ValidBody content) : L.Balanced := by
  rw [bodyContent, h.dispatchInstrs_eq, ok_bind] at hc
  obtain rfl := Except.ok.inj hc
  rwa [validBody_encode_iff, isBody_bodyInstrs_iff] at hbody

/-- Running a valid body follows the route of the code. -/
theorem exec_takenRoute {L : Linker} {env : Env} (hlink : Linkable L) (hconf : Conforms L env)
    {content : List UInt8} (hc : bodyContent L = .ok content) (hbody : ValidBody content)
    (p : Params) :
    ∃ o, execBody env p content = some o ∧ Routed L p (takenRoute L p) ⟨[], []⟩ o := by
  have hbal := hlink.balanced_of_valid hc hbody
  exact ⟨_, execBody_bodyContent hlink hbal env p hc, routed_body hconf hbal⟩

/-- Running a valid body calls the handler the call belongs to, or makes the assertion it belongs
to, exactly when no listed code keeps it from its wildcard handler. -/
theorem exec_expectedRoute_iff (L : Linker) (env : Env) (content : List UInt8) (p : Params)
    (hlink : Linkable L) (hvalid : ValidEntries L) (hconf : Conforms L env)
    (hc : bodyContent L = .ok content) (hbody : ValidBody content) :
    ∃ o, execBody env p content = some o ∧
      (Routed L p (expectedRoute L p) ⟨[], []⟩ o ↔ ¬ Shadowed L p) := by
  obtain ⟨o, hexec, hrouted⟩ := exec_takenRoute hlink hconf hc hbody p
  refine ⟨o, hexec, ?_⟩
  rw [← takenRoute_eq_iff (hlink.balanced_of_valid hc hbody) hvalid p]
  constructor
  · exact fun h => hrouted.unique h
  · exact fun heq => heq ▸ hrouted

/-! ## A listed code with a wildcard handler -/

def issueSymbols : List (Str × UInt32) :=
  [(uosioAssertCode, 0), ("on_transfer".toList, 1), ("on_issue".toList, 2), (postDispatch, 3)]

/-- A contract that listens to the transfers of `uosio.token` and to anyone's `issue`. -/
def issueContract : Linker where
  objectFiles := [
    { uosioActions := []
      uosioNotify := ["uosio.token::transfer:on_transfer".toList, "*::issue:on_issue".toList] }]
  find name := issueSymbols.lookup name
  symbolCount := 4

/-- Its functions return, except `uosio_assert_code(false, _)`. -/
def issueEnv : Env := fun i =>
  if i = 0 then
    { arity := 2, run := fun _ args => if args.head? = some (.i32 0) then .trap else .ret [] }
  else if i = 3 then { arity := 3, run := fun _ _ => .ret [] }
  else { arity := 2, run := fun _ _ => .ret [] }

/-- `uosio.token` issues. -/
def issueParams : Params where
  receiver := stringToName "alice".toList
  code := stringToName "uosio.token".toList
  action := stringToName "issue".toList

lemma linkable_issueContract : Linkable issueContract where
  assertFound := ⟨0, by decide, by decide⟩
  actions := by simp [issueContract]
  notifies := by
    intro f hf e he
    obtain rfl : f = issueContract.objectFiles.head (by decide) := by
      simpa [issueContract] using hf
    have hcases : e = "uosio.token::transfer:on_transfer".toList ∨
        e = "*::issue:on_issue".toList := by
      simpa [issueContract] using he
    rcases hcases with rfl | rfl
    · exact ⟨"uosio.token".toList, "transfer".toList, "on_transfer".toList, by decide, by decide,
        by decide, by decide⟩
    · exact ⟨"*".toList, "issue".toList, "on_issue".toList, by decide, by decide, by decide,
        by decide⟩

lemma validEntries_issueContract : ValidEntries issueContract where
  actionName := by decide
  notifyCode := by decide
  notifyAction := by decide
  distinctActions := by decide
  distinctNotifies := by decide

lemma conforms_issueContract : Conforms issueContract issueEnv where
  handler := by
    intro i hi
    have hindices : issueContract.actions.map issueContract.index ++
        issueContract.notifies.map (fun e => issueContract.index (handlerOf e)) = [1, 2] := by
      decide
    have hmem : i ∈ issueContract.actions.map issueContract.index ++
        issueContract.notifies.map (fun e => issueContract.index (handlerOf e)) := by
      simpa [Linker.isHandler] using hi
    rw [hindices, List.mem_cons, List.mem_singleton] at hmem
    rcases hmem with rfl | rfl
    · exact ⟨rfl, fun _ _ => .inl rfl⟩
    · exact ⟨rfl, fun _ _ => .inl rfl⟩
  assertArity := by decide
  assertTraps := fun _ _ => rfl
  preArity := fun i hi => by cases (show none = some i from hi)
  preTrue := fun i hi => by cases (show none = some i from hi)
  post := by
    intro i hi
    obtain rfl : 3 = i := Option.some.inj hi
    exact ⟨rfl, fun _ _ => .inl rfl⟩
  ctorsArity := fun i hi => by cases (show none = some i from hi)
  ctorsReturn := fun i hi => by cases (show none = some i from hi)
  dtors := fun i hi => by cases (show none = some i from hi)

lemma valid_issueContract :
    ∃ content, bodyContent issueContract = .ok content ∧ ValidBody content := by
  refine ⟨_, ?_, (validBody_encode_iff (bodyInstrs issueContract)).mpr ?_⟩
  · rw [bodyContent, linkable_issueContract.dispatchInstrs_eq, ok_bind]
    rfl
  · decide

lemma shadowed_issueParams : Shadowed issueContract issueParams := by
  refine ⟨by decide, by decide, ?_, by decide, by decide⟩
  exact ⟨"uosio.token::transfer:on_transfer".toList, by decide, by decide, by decide⟩

/-- The issue of the listed `uosio.token` reaches no handler. -/
theorem exists_lost_notification :
    ¬ ∀ (L : Linker) (env : Env) (content : List UInt8) (p : Params), Linkable L →
      ValidEntries L → Conforms L env → bodyContent L = .ok content → ValidBody content →
      ∃ o, execBody env p content = some o ∧ Routed L p (expectedRoute L p) ⟨[], []⟩ o := by
  intro h
  obtain ⟨content, hc, hbody⟩ := valid_issueContract
  obtain ⟨o, hexec, hexpected⟩ := h issueContract issueEnv content issueParams
    linkable_issueContract validEntries_issueContract conforms_issueContract hc hbody
  obtain ⟨o', hexec', htaken⟩ :=
    exec_takenRoute linkable_issueContract conforms_issueContract hc hbody issueParams
  obtain rfl := Option.some.inj (hexec.symm.trans hexec')
  have hbal := linkable_issueContract.balanced_of_valid hc hbody
  exact (takenRoute_eq_iff hbal validEntries_issueContract issueParams).mp
    (htaken.unique hexpected) shadowed_issueParams

theorem exec_expectedRoute_iff_issueContract :
    ∃ content, bodyContent issueContract = .ok content ∧
      ∃ o, execBody issueEnv issueParams content = some o ∧
        (Routed issueContract issueParams (expectedRoute issueContract issueParams) ⟨[], []⟩ o ↔
          ¬ Shadowed issueContract issueParams) := by
  obtain ⟨content, hc, hbody⟩ := valid_issueContract
  exact ⟨content, hc, exec_expectedRoute_iff issueContract issueEnv content issueParams
    linkable_issueContract validEntries_issueContract conforms_issueContract hc hbody⟩

end UosioCdt.Dispatch
