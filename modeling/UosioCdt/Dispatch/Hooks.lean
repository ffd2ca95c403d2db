import UosioCdt.Dispatch.Routing

/-!
# The hooks of the dispatcher

The calls of a whole run in their order: constructors, `pre_dispatch`, then a handler, an assertion
or `post_dispatch`, and `__cxa_finalize`. A run makes all of them, or it is cut short by one that
traps (`Makes`).
-/

namespace UosioCdt.Dispatch

open StructuredCode Tools

/-! ## The called functions -/

/-- The called functions have the types of their declarations, and `uosio_assert_code(false, _)`
aborts. Any other function may return or trap. -/
structure Typed (L : Linker) (env : Env) : Prop where
  handler : ∀ i, L.isHandler i = true → (env i).IsVoid 2
  assertArity : (env L.assertIdx).arity = 2
  assertTraps : ∀ calls code, (env L.assertIdx).run calls [.i32 0, .i64 code] = .trap
  preArity : ∀ i, L.find preDispatch = some i → (env i).arity = 3
  preBool : ∀ i, L.find preDispatch = some i → ∀ calls args,
    (∃ v, (env i).run calls args = .ret [.i32 v]) ∨ (env i).run calls args = .trap
  post : ∀ i, L.find postDispatch = some i → (env i).IsVoid 3
  ctors : ∀ i, L.find wasmCallCtors = some i → i ≠ 0 → (env i).IsVoid 0
  dtors : ∀ i, L.find cxaFinalize = some i → i ≠ 0 → i.toNat < L.symbolCount → (env i).IsVoid 1

/-- Functions that conform have their types. -/
lemma Conforms.typed {L : Linker} {env : Env} (h : Conforms L env) : Typed L env where
  handler := h.handler
  assertArity := h.assertArity
  assertTraps := h.assertTraps
  preArity := h.preArity
  preBool := fun i hi calls args =>
    let ⟨v, _, hrun⟩ := h.preTrue i hi calls args
    .inl ⟨v, hrun⟩
  post := h.post
  ctors := fun i hi hne => ⟨h.ctorsArity i hi hne,
    fun calls args => .inl (h.ctorsReturn i hi hne calls args)⟩
  dtors := h.dtors

/-! ## The calls of a run -/

/-- The arguments of a hook. -/
def Params.hookArgs (p : Params) : List Val := [.i64 p.receiver, .i64 p.code, .i64 p.action]

/-- The call of the constructors. -/
def ctorsCalls (L : Linker) : List Call :=
  match L.find wasmCallCtors with
  | some i => if i ≠ 0 then [⟨i, []⟩] else []
  | none => []

def preCalls (L : Linker) (p : Params) : List Call :=
  match L.find preDispatch with
  | some i => [⟨i, p.hookArgs⟩]
  | none => []

def postCalls (L : Linker) (p : Params) : List Call :=
  match L.find postDispatch with
  | some i => [⟨i, p.hookArgs⟩]
  | none => []

/-- The call of `__cxa_finalize`. -/
def dtorsCalls (L : Linker) : List Call :=
  match L.find cxaFinalize with
  | some i => if i ≠ 0 ∧ i.toNat < L.symbolCount then [⟨i, [.i32 0]⟩] else []
  | none => []

/-- `pre_dispatch` is present and returns false behind the constructors. -/
def preFalse (L : Linker) (env : Env) (p : Params) : Bool :=
  match L.find preDispatch with
  | some i =>
    match (env i).run (ctorsCalls L) p.hookArgs with
    | .ret [.i32 v] => decide (v = 0)
    | _ => false
  | none => false

/-- The call fails with the error code for `uosio::onerror`. -/
def AssertsOnerror (L : Linker) (p : Params) : Prop :=
  hasOnerrorHandler L.handlers = false ∧ p.IsOnerror

instance (L : Linker) (p : Params) : Decidable (AssertsOnerror L p) :=
  inferInstanceAs (Decidable (_ ∧ _))

/-- A notification that no handler matches. -/
def Unmatched (L : Linker) (p : Params) : Prop :=
  p.code ≠ p.receiver ∧ L.notifyFor p.code p.action = none ∧ L.wildcardFor p.action = none

instance (L : Linker) (p : Params) : Decidable (Unmatched L p) :=
  inferInstanceAs (Decidable (_ ∧ _ ∧ _))

/-- `post_dispatch` is for the notifications that no handler matches, unless they fail, and for
the actions of `uosio` itself that no entry has. -/
def PostFires (L : Linker) (p : Params) : Prop :=
  (Unmatched L p ∧ ¬ AssertsOnerror L p) ∨
    (p.code = p.receiver ∧ p.receiver = stringToName uosioName ∧ L.actionFor p.action = none)

instance (L : Linker) (p : Params) : Decidable (PostFires L p) :=
  inferInstanceAs (Decidable (_ ∨ _))

/-- A notification of a listed code, for an action that no handler has. -/
def Missed (L : Linker) (p : Params) : Prop :=
  Unmatched L p ∧ ¬ AssertsOnerror L p ∧
    ∃ e ∈ L.notifies, beforeColon e ≠ ['*'] ∧ stringToName (beforeColon e) = p.code

instance (L : Linker) (p : Params) : Decidable (Missed L p) :=
  inferInstanceAs (Decidable (_ ∧ _ ∧ _))

/-- The calls of a run, when none of them traps; `post` are those behind the handlers. -/
def hookTrace (L : Linker) (env : Env) (p : Params) (post : List Call) : List Call :=
  ctorsCalls L ++ (preCalls L p ++
    if preFalse L env p then [] else (takenRoute L p).calls L p ++ post ++ dtorsCalls L)

/-- The run makes these calls, or it is cut short by one of them that traps. -/
def Makes (env : Env) (trace : List Call) (s : State) (o : Outcome State) : Prop :=
  o = .done ⟨s.stack, s.calls ++ trace⟩ ∨
    ∃ stack before c after, trace = before ++ c :: after ∧
      o = .trap ⟨stack, s.calls ++ before ++ [c]⟩ ∧
      (env c.index).run (s.calls ++ before) c.args = .trap

section makes

variable {L : Linker} {env : Env} {p : Params} {trace trace' : List Call} {s : State}
variable {o : Outcome State}

lemma makes_nil (s : State) : Makes env [] s (.done s) := by
  refine .inl ?_
  rw [List.append_nil]

/-- A trap ends the run, whatever comes behind it. -/
lemma makes_of_trap (stack : List Val) {before : List Call} (after : List Call) {c : Call}
    (htrap : (env c.index).run (s.calls ++ before) c.args = .trap) :
    Makes env (before ++ c :: after) s (.trap ⟨stack, s.calls ++ before ++ [c]⟩) :=
  .inr ⟨stack, before, c, after, rfl, rfl, htrap⟩

lemma Makes.andThen {k : State → Outcome State} (h : Makes env trace s o)
    (hk : o = .done ⟨s.stack, s.calls ++ trace⟩ →
      Makes env trace' ⟨s.stack, s.calls ++ trace⟩ (k ⟨s.stack, s.calls ++ trace⟩)) :
    Makes env (trace ++ trace') s (o.andThen k) := by
  rcases h with hdone | ⟨stack, before, c, after, htrace, htrap, hrun⟩
  · -- the first part is done, and the second one runs behind its calls
    have hrest := hk hdone
    rw [hdone]
    rcases hrest with hdone' | ⟨stack, before, c, after, htrace, htrap, hrun⟩
    · refine .inl ?_
      rw [← List.append_assoc]
      exact hdone'
    · subst htrace
      rw [show trace ++ (before ++ c :: after) = (trace ++ before) ++ c :: after by simp]
      show Makes _ _ _ (k _)
      rw [htrap]
      simp only [List.append_assoc] at hrun ⊢
      have hmakes := makes_of_trap stack after hrun
      simpa using hmakes
  · subst htrace
    rw [htrap, List.append_assoc]
    exact makes_of_trap _ _ hrun

/-- A call that has been made in front. -/
lemma Makes.behind {c : Call} (h : Makes env trace ⟨s.stack, s.calls ++ [c]⟩ o) :
    Makes env (c :: trace) s o := by
  rcases h with hdone | ⟨stack, before, d, after, htrace, htrap, hrun⟩
  · refine .inl ?_
    rw [hdone, List.append_assoc, List.singleton_append]
  · refine .inr ⟨stack, c :: before, d, after, ?_, ?_, ?_⟩
    · rw [htrace, List.cons_append]
    · rw [htrap, List.append_assoc s.calls, List.singleton_append]
    · rw [List.append_assoc, List.singleton_append] at hrun
      exact hrun

/-- One call of a function without results. -/
lemma makes_invoke {i : UInt32} {n : ℕ} (hi : (env i).IsVoid n) (args : List Val) (s : State) :
    Makes env [⟨i, args⟩] s (invoke env i args s) := by
  unfold invoke
  rcases hi.run_eq s.calls args with hrun | hrun
  · rw [hrun]
    exact .inl rfl
  · rw [hrun]
    refine .inr ⟨s.stack, [], ⟨i, args⟩, [], rfl, ?_, ?_⟩
    · rw [List.append_nil]
    · rw [List.append_nil]
      exact hrun

/-- An assertion traps. -/
lemma makes_assert (htyped : Typed L env) (code : UInt64) (after : List Call) (s : State) :
    Makes env (⟨L.assertIdx, [.i32 0, .i64 code]⟩ :: after) s
      (invoke env L.assertIdx [.i32 0, .i64 code] s) := by
  have hrun := htyped.assertTraps s.calls code
  unfold invoke
  rw [hrun]
  refine .inr ⟨s.stack, [], _, after, rfl, ?_, ?_⟩
  · rw [List.append_nil]
  · rw [List.append_nil]
    exact hrun

/-! ## The parts of the body -/

/-- What a chain of `create_if` calls, with the calls of its ELSE. -/
def chainCalls (L : Linker) (p : Params) (strs : List Str) (otherwise : List Call) : List Call :=
  match selected p strs with
  | some str => [⟨L.index str, [.i64 p.receiver, .i64 p.code]⟩]
  | none => otherwise

lemma chainRoute_calls (strs : List Str) : (chainRoute L p strs).calls L p = chainCalls L p strs [] := by
  unfold chainRoute chainCalls
  cases selected p strs <;> rfl

lemma Typed.chain_arity (htyped : Typed L env) {strs : List Str}
    (h : ∀ str ∈ strs, L.isHandler (L.index str) = true) :
    ∀ str ∈ strs, (env (L.index str)).arity = 2 :=
  fun str hstr => (htyped.handler _ (h str hstr)).arity_eq

lemma makes_chain (htyped : Typed L env) {strs : List Str}
    (h : ∀ str ∈ strs, L.isHandler (L.index str) = true) {e : Outcome State}
    (he : selected p strs = none → Makes env trace s e) :
    Makes env (chainCalls L p strs trace) s
      (match selected p strs with
        | some str => callHandler env L p str s
        | none => e) := by
  unfold chainCalls
  cases hsel : selected p strs with
  | some str =>
    exact makes_invoke (htyped.handler _ (h str (List.mem_of_find?_eq_some hsel))) _ s
  | none => exact he hsel

/-- The hook behind a chain. -/
lemma makes_post (htyped : Typed L env) {postIdx : UInt32}
    (hpost : L.find postDispatch = some postIdx) (s : State) :
    Makes env (postCalls L p) s (execBlock env p (ops (pushParams ++ [.call postIdx]) .nil) s) := by
  have hvoid := htyped.post postIdx hpost
  unfold postCalls
  rw [exec_hook hvoid.arity_eq, andThen_exec_nil, hpost]
  exact makes_invoke hvoid p.hookArgs s

/-- Without an entry for the action, `uosio` itself gets its hook and any other contract fails. -/
lemma makes_noAction (htyped : Typed L env) (s : State) :
    Makes env
      (if p.receiver = stringToName uosioName then postCalls L p
        else [⟨L.assertIdx, [.i32 0, .i64 UOSIO_ERROR_NO_ACTION]⟩]) s
      (execBlock env p (noActionBlock L) s) := by
  have hassert := makes_assert htyped UOSIO_ERROR_NO_ACTION [] s
  rw [← exec_assertCode UOSIO_ERROR_NO_ACTION htyped.assertArity] at hassert
  cases hpost : L.find postDispatch with
  | some postIdx =>
    simp only [noActionBlock, hpost]
    rw [exec_receiverTest, exec_ifElse, andThen_exec_nil]
    by_cases huosio : p.receiver = stringToName uosioName
    · simpa [huosio] using makes_post htyped hpost s
    · simpa [huosio, assertBlock] using hassert
  | none =>
    simp only [noActionBlock, hpost]
    rw [exec_receiverTest, exec_ifThen, andThen_exec_nil]
    by_cases huosio : p.receiver = stringToName uosioName
    · simpa [huosio, postCalls, hpost] using makes_nil s
    · simpa [huosio, assertBlock] using hassert

/-- What a balanced body calls behind the handlers: a listed code keeps the notification from the
hook. -/
def madePost (L : Linker) (p : Params) : List Call :=
  if PostFires L p ∧ ¬ Missed L p then postCalls L p else []

lemma madePost_self (hself : p.code = p.receiver) :
    madePost L p =
      if p.receiver = stringToName uosioName ∧ selected p L.actions = none then postCalls L p
      else [] := by
  have hfires : (PostFires L p ∧ ¬ Missed L p) ↔
      p.receiver = stringToName uosioName ∧ selected p L.actions = none := by
    constructor
    · rintro ⟨h | h, -⟩
      · exact absurd hself h.1.1
      · exact h.2
    · intro h
      exact ⟨.inr ⟨hself, h⟩, fun hmissed => hmissed.1.1 hself⟩
  exact if_congr hfires rfl rfl

lemma madePost_listed (hself : p.code ≠ p.receiver)
    (hcode : ∃ e ∈ L.notifies, beforeColon e ≠ ['*'] ∧ stringToName (beforeColon e) = p.code) :
    madePost L p = [] := by
  apply if_neg
  rintro ⟨h | h, hmissed⟩
  · exact hmissed ⟨h.1, h.2, hcode⟩
  · exact hself h.1

lemma madePost_not_listed (hself : p.code ≠ p.receiver) (honerror : ¬ AssertsOnerror L p)
    (hcode : ∀ e ∈ L.notifies, beforeColon e ≠ ['*'] → stringToName (beforeColon e) ≠ p.code) :
    madePost L p = if L.wildcardFor p.action = none then postCalls L p else [] := by
  have hfires : (PostFires L p ∧ ¬ Missed L p) ↔ L.wildcardFor p.action = none := by
    constructor
    · rintro ⟨h | h, -⟩
      · exact h.1.2.2
      · exact absurd h.1 hself
    · intro h
      refine ⟨.inl ⟨⟨hself, Linker.notifyFor_eq_none hcode p.action, h⟩, honerror⟩, ?_⟩
      rintro ⟨-, -, e, he, hne, hname⟩
      exact hcode e he hne hname
  exact if_congr hfires rfl rfl

/-- The action dispatcher, on a call of the contract itself. -/
lemma makes_actions (htyped : Typed L env) (hself : p.code = p.receiver) (s : State) :
    Makes env ((takenRoute L p).calls L p ++ madePost L p) s
      (execBlock env p (chainBlock L L.actions (noActionBlock L)) s) := by
  have hhandler : ∀ str ∈ L.actions, L.isHandler (L.index str) = true :=
    fun _ => Linker.isHandler_action
  have hcalls : (takenRoute L p).calls L p ++ madePost L p = chainCalls L p L.actions
      (if p.receiver = stringToName uosioName then postCalls L p
        else [⟨L.assertIdx, [.i32 0, .i64 UOSIO_ERROR_NO_ACTION]⟩]) := by
    unfold takenRoute actionRoute chainCalls
    rw [if_pos hself, madePost_self hself]
    cases selected p L.actions with
    | some str => simp [Route.calls]
    | none =>
      by_cases huosio : p.receiver = stringToName uosioName <;> simp [huosio, Route.calls]
  rw [exec_chainBlock _ _ (htyped.chain_arity hhandler), hcalls]
  exact makes_chain htyped hhandler fun _ => makes_noAction htyped s

/-- The notify handlers of a balanced contract, on a notification that does not fail. -/
lemma makes_notifyChain (htyped : Typed L env) (hbal : L.Balanced) (hself : p.code ≠ p.receiver)
    (honerror : ¬ AssertsOnerror L p) (s : State) :
    Makes env ((takenRoute L p).calls L p ++ madePost L p) s
      (execBlock env p (notifyChain L) s) := by
  have hwild : selected p L.wildcards = none ↔ L.wildcardFor p.action = none := by
    rw [Linker.wildcards, selected_get, Option.map_eq_none_iff]
    exact Iff.rfl
  have hthen (code : Str) : Makes env (chainCalls L p (MultiMap.get L.handlers code) []) s
      (execBlock env p (chainThen L (MultiMap.get L.handlers code)) s) := by
    rw [exec_chainThen s (htyped.chain_arity isHandler_get)]
    exact makes_chain htyped isHandler_get fun _ => makes_nil s
  have htaken : takenRoute L p = notifyRoute L p := by
    rw [takenRoute, if_neg hself]
  unfold AssertsOnerror at honerror
  rw [htaken, notifyRoute, if_neg honerror]
  rcases hbal.specific_cases with ⟨hnil, -⟩ | ⟨code, hone, ⟨e₀, he₀, hne₀, hcode₀⟩, hall⟩
  · -- no code is listed, and then there is no `post_dispatch`
    have hnone : madePost L p = [] := by
      unfold madePost postCalls
      rw [hbal.post_eq_none_iff.2 hnil]
      exact ite_self []
    have hchain : notifyChain L = chainThen L L.wildcards := by
      unfold notifyChain
      split
      · simp_all
      · rfl
    rw [hnil, hchain, hnone, List.append_nil]
    show Makes env ((chainRoute L p L.wildcards).calls L p) s _
    rw [chainRoute_calls]
    exact hthen ['*']
  · -- one code is listed: its chain, or else the wildcards with the hook behind them
    have hsome : L.find postDispatch ≠ none := by
      rw [ne_eq, hbal.post_eq_none_iff, hone]
      exact List.cons_ne_nil _ _
    obtain ⟨postIdx, hpost⟩ := Option.ne_none_iff_exists'.mp hsome
    simp only [notifyChain, hpost, hone]
    rw [exec_constTest _ rfl, exec_ifElse, andThen_exec_nil]
    by_cases hcode : p.code = stringToName code
    · have hlisted := madePost_listed hself ⟨e₀, he₀, hne₀, by rw [hcode₀, hcode]⟩
      rw [hlisted, List.append_nil, if_pos hcode, if_pos (by simpa using hcode.symm),
        chainRoute_calls]
      exact hthen code
    · have hother : ∀ e ∈ L.notifies, beforeColon e ≠ ['*'] →
          stringToName (beforeColon e) ≠ p.code := by
        intro e he hne heq
        rw [hall e he hne] at heq
        exact hcode heq.symm
      have hcalls : chainCalls L p L.wildcards [] ++ madePost L p =
          chainCalls L p L.wildcards (postCalls L p) := by
        rw [madePost_not_listed hself honerror hother]
        unfold chainCalls
        simp only [← hwild]
        cases selected p L.wildcards <;> simp
      rw [if_neg hcode, chainRoute_calls, hcalls, if_neg (by simpa using Ne.symm hcode),
        Linker.wildcards, exec_chainBlock _ _ (htyped.chain_arity isHandler_get)]
      exact makes_chain htyped isHandler_get fun _ => makes_post htyped hpost s

lemma makes_notifies (htyped : Typed L env) (hbal : L.Balanced) (hself : p.code ≠ p.receiver)
    (s : State) :
    Makes env ((takenRoute L p).calls L p ++ madePost L p) s
      (execBlock env p ((onerrorBlock L).append (notifyChain L)) s) := by
  have happend : execBlock env p ((onerrorBlock L).append (notifyChain L)) s
      = (execBlock env p (onerrorBlock L) s).andThen (execBlock env p (notifyChain L)) :=
    Block.run_append ..
  rw [happend, exec_onerrorBlock htyped.assertArity]
  by_cases honerror : AssertsOnerror L p
  · have htaken : takenRoute L p = .assertCode UOSIO_ERROR_ONERROR := by
      rw [takenRoute, if_neg hself, notifyRoute]
      exact if_pos honerror
    unfold AssertsOnerror at honerror
    rw [htaken, if_pos honerror]
    -- the assertion traps, so the handlers behind it are not reached
    have htrap : invoke env L.assertIdx [.i32 0, .i64 UOSIO_ERROR_ONERROR] s =
        .trap ⟨s.stack, s.calls ++ [⟨L.assertIdx, [.i32 0, .i64 UOSIO_ERROR_ONERROR]⟩]⟩ := by
      unfold invoke
      rw [htyped.assertTraps]
    have hmakes := makes_assert htyped UOSIO_ERROR_ONERROR (madePost L p) s
    rw [htrap] at hmakes ⊢
    exact hmakes
  · have hnot : ¬ (hasOnerrorHandler L.handlers = false ∧ p.IsOnerror) := honerror
    rw [if_neg hnot]
    exact makes_notifyChain htyped hbal hself honerror s

lemma makes_dtors (htyped : Typed L env) (s : State) :
    Makes env (dtorsCalls L) s (execBlock env p (dtorsBlock L) s) := by
  unfold dtorsBlock dtorsCalls
  cases hdtors : L.find cxaFinalize with
  | none => exact makes_nil s
  | some dtorsIdx =>
    by_cases hcalled : dtorsIdx ≠ 0 ∧ dtorsIdx.toNat < L.symbolCount
    · have hvoid := htyped.dtors dtorsIdx hdtors hcalled.1 hcalled.2
      have hcall := exec_call (p := p) [.i32 0] .nil s hvoid.arity_eq.symm
      rw [andThen_exec_nil] at hcall
      simp only [if_pos hcalled]
      exact hcall ▸ makes_invoke hvoid [.i32 0] s
    · simp only [if_neg hcalled]
      exact makes_nil s

/-- The dispatcher behind `pre_dispatch`. -/
lemma makes_dispatch (htyped : Typed L env) (hbal : L.Balanced) (s : State) :
    Makes env ((takenRoute L p).calls L p ++ madePost L p ++ dtorsCalls L) s
      (execBlock env p (dispatchBlock L) s) := by
  rw [dispatchBlock, exec_selfTest, exec_ifElse]
  apply Makes.andThen
  · by_cases hself : p.receiver = p.code
    · simpa [hself] using makes_actions htyped hself.symm s
    · simpa [hself] using makes_notifies htyped hbal (Ne.symm hself) s
  · intro _
    exact makes_dtors htyped _

/-- The body behind the constructors. -/
lemma makes_pre (htyped : Typed L env) (hbal : L.Balanced) :
    Makes env
      (preCalls L p ++
        if preFalse L env p then []
        else (takenRoute L p).calls L p ++ madePost L p ++ dtorsCalls L)
      ⟨[], ctorsCalls L⟩ (execBlock env p (preBlock L) ⟨[], ctorsCalls L⟩) := by
  cases hpre : L.find preDispatch with
  | none =>
    have hfalse : preFalse L env p = false := by
      unfold preFalse
      rw [hpre]
    have hcalls : preCalls L p = [] := by
      unfold preCalls
      rw [hpre]
    unfold preBlock
    rw [hpre, hfalse, hcalls]
    exact makes_dispatch htyped hbal _
  | some preIdx =>
    have hcalls : preCalls L p = [⟨preIdx, p.hookArgs⟩] := by
      unfold preCalls
      rw [hpre]
    have hblock : preBlock L =
        ops (pushParams ++ [.call preIdx]) (.ifThen (dispatchBlock L) .nil) := by
      unfold preBlock
      rw [hpre]
    have hvalue : preFalse L env p =
        match (env preIdx).run (ctorsCalls L) p.hookArgs with
        | .ret [.i32 v] => decide (v = 0)
        | _ => false := by
      unfold preFalse
      rw [hpre]
    rw [hcalls, hblock, exec_hook (htyped.preArity preIdx hpre)]
    show Makes _ _ _ ((invoke env preIdx p.hookArgs _).andThen _)
    unfold invoke
    rcases htyped.preBool preIdx hpre (ctorsCalls L) p.hookArgs with ⟨v, hrun⟩ | hrun
    · rw [hrun] at hvalue
      rw [hrun]
      apply Makes.behind
      by_cases hv : v = 0
      · -- nothing runs behind a `pre_dispatch` that returns false
        subst hv
        have htrue : preFalse L env p = true := hvalue
        rw [htrue, if_pos rfl]
        exact makes_nil _
      · have hfalse : preFalse L env p = false := by
          rw [hvalue]
          exact decide_eq_false hv
        have hif := exec_ifThen_of_ne env p hv (dispatchBlock L) .nil
          ⟨[], ctorsCalls L ++ [⟨preIdx, p.hookArgs⟩]⟩
        rw [andThen_exec_nil] at hif
        rw [hfalse]
        show Makes _ _ _ (execBlock _ _ _ ⟨.i32 v :: [], _⟩)
        rw [hif]
        exact makes_dispatch htyped hbal _
    · rw [hrun]
      refine .inr ⟨[], [], ⟨preIdx, p.hookArgs⟩, _, rfl, ?_, ?_⟩
      · rw [List.append_nil]
        rfl
      · rw [List.append_nil]
        exact hrun

/-- A balanced body makes the calls of its hooks in their order. -/
lemma makes_body (htyped : Typed L env) (hbal : L.Balanced) :
    Makes env (hookTrace L env p (madePost L p)) ⟨[], []⟩
      (execBlock env p (bodyBlock L) ⟨[], []⟩) := by
  have hpre := makes_pre (p := p) htyped hbal
  unfold hookTrace
  by_cases hctors : ∃ i, L.find wasmCallCtors = some i ∧ i ≠ 0
  · obtain ⟨ctorsIdx, hfind, hne⟩ := hctors
    have hcalls : ctorsCalls L = [⟨ctorsIdx, []⟩] := by
      unfold ctorsCalls
      rw [hfind]
      exact if_pos hne
    have hblock : bodyBlock L = ops [.call ctorsIdx] (preBlock L) := by
      unfold bodyBlock
      rw [hfind]
      exact if_pos hne
    have hvoid := htyped.ctors ctorsIdx hfind hne
    have hcall := exec_call (p := p) [] (preBlock L) ⟨[], []⟩ hvoid.arity_eq.symm
    have hinvoke := makes_invoke hvoid [] ⟨[], []⟩
    rw [hcalls] at hpre ⊢
    rw [hblock]
    refine hcall ▸ hinvoke.andThen fun _ => ?_
    exact hpre
  · have hcalls : ctorsCalls L = [] := by
      unfold ctorsCalls
      split
      · rename_i i hfind
        exact if_neg fun hne => hctors ⟨i, hfind, hne⟩
      · rfl
    have hblock : bodyBlock L = preBlock L := by
      unfold bodyBlock
      split
      · rename_i i hfind
        exact if_neg fun hne => hctors ⟨i, hfind, hne⟩
      · rfl
    rw [hcalls] at hpre ⊢
    rw [hblock]
    exact hpre

end makes

/-- Running a valid body makes the calls of its hooks in their order. -/
lemma exec_makes {L : Linker} {env : Env} {content : List UInt8} (hlink : Linkable L)
    (htyped : Typed L env) (hc : bodyContent L = .ok content) (hbody : ValidBody content)
    (p : Params) :
    ∃ o, execBody env p content = some o ∧
      Makes env (hookTrace L env p (madePost L p)) ⟨[], []⟩ o := by
  have hbal := hlink.balanced_of_valid hc hbody
  exact ⟨_, execBody_bodyContent hlink hbal env p hc, makes_body htyped hbal⟩

/-- The calls of a run are those of its hooks in their order. `post_dispatch` is called once or not
at all, and it is called when it is for the call, unless a listed code misses it. -/
theorem exec_hookTrace (L : Linker) (env : Env) (content : List UInt8) (p : Params)
    (hlink : Linkable L) (htyped : Typed L env) (hc : bodyContent L = .ok content)
    (hbody : ValidBody content) :
    ∃ o post, execBody env p content = some o ∧
      Makes env (hookTrace L env p post) ⟨[], []⟩ o ∧
      (post = postCalls L p ∨ post = []) ∧
      (¬ Missed L p → post = if PostFires L p then postCalls L p else []) := by
  obtain ⟨o, hexec, hmakes⟩ := exec_makes hlink htyped hc hbody p
  refine ⟨o, madePost L p, hexec, hmakes, ite_eq_or_eq _ _ _, ?_⟩
  intro hmissed
  unfold madePost
  simp only [hmissed, not_false_eq_true, and_true]

/-- The contract that listens to `uosio.token` is notified of a transfer on another contract. -/
theorem exec_hookTrace_transfer :
    ∃ content o, bodyContent issueContract = .ok content ∧
      execBody issueEnv ⟨stringToName "alice".toList, stringToName "bob".toList,
        stringToName "transfer".toList⟩ content = some o ∧
      Makes issueEnv [⟨3, [.i64 (stringToName "alice".toList), .i64 (stringToName "bob".toList),
        .i64 (stringToName "transfer".toList)]⟩] ⟨[], []⟩ o := by
  obtain ⟨content, hc, hbody⟩ := valid_issueContract
  obtain ⟨o, post, hexec, hmakes, -, hpost⟩ := exec_hookTrace issueContract issueEnv content
    ⟨stringToName "alice".toList, stringToName "bob".toList, stringToName "transfer".toList⟩
    linkable_issueContract conforms_issueContract.typed hc hbody
  rw [hpost (by decide)] at hmakes
  exact ⟨content, o, hc, hexec, hmakes⟩

/-- The calls that a run has made. -/
def madeCalls : Outcome State → List Call
  | .done s => s.calls
  | .trap s => s.calls
  | .stuck => []

lemma Makes.subset {env : Env} {trace : List Call} {o : Outcome State}
    (h : Makes env trace ⟨[], []⟩ o) : madeCalls o ⊆ trace := by
  rcases h with rfl | ⟨stack, before, c, after, rfl, rfl, -⟩
  · exact List.Subset.refl trace
  · intro d hd
    simpa [madeCalls, or_assoc] using Or.inl (List.mem_append.1 hd)

lemma Makes.head_mem {env : Env} {c : Call} {trace : List Call} {o : Outcome State}
    (h : Makes env (c :: trace) ⟨[], []⟩ o) : c ∈ madeCalls o := by
  rcases h with rfl | ⟨stack, before, d, after, htrace, rfl, -⟩
  · exact List.mem_cons_self
  · cases before with
    | nil =>
      obtain ⟨rfl, -⟩ := List.cons.inj htrace
      exact List.mem_cons_self
    | cons x before =>
      obtain ⟨rfl, -⟩ := List.cons.inj htrace
      exact List.mem_cons_self

/-- A failed deferred transaction reaches an assertion and not `post_dispatch`, although no handler
matches. An action that `uosio` itself does not have reaches `post_dispatch`, although it is no
notification. -/
theorem exists_hook_exceptions :
    Linkable issueContract ∧ Typed issueContract issueEnv ∧
    ∃ content, bodyContent issueContract = .ok content ∧ ValidBody content ∧
      (∃ p o, preFalse issueContract issueEnv p = false ∧ Unmatched issueContract p ∧
        execBody issueEnv p content = some o ∧
        ∀ c ∈ postCalls issueContract p, c ∉ madeCalls o) ∧
      ∃ p o, preFalse issueContract issueEnv p = false ∧ p.code = p.receiver ∧
        execBody issueEnv p content = some o ∧
        ∀ c ∈ postCalls issueContract p, c ∈ madeCalls o := by
  obtain ⟨content, hc, hbody⟩ := valid_issueContract
  refine ⟨linkable_issueContract, conforms_issueContract.typed, content, hc, hbody, ?_, ?_⟩
  · obtain ⟨o, hexec, hmakes⟩ := exec_makes linkable_issueContract conforms_issueContract.typed hc
      hbody ⟨stringToName "alice".toList, stringToName uosioName, stringToName onerrorName⟩
    refine ⟨_, o, by decide, by decide, hexec, ?_⟩
    intro c hpost hmem
    have htrace := hmakes.subset hmem
    clear hmem
    revert c
    decide
  · obtain ⟨o, hexec, hmakes⟩ := exec_makes linkable_issueContract conforms_issueContract.typed hc
      hbody ⟨stringToName uosioName, stringToName uosioName, stringToName "transfer".toList⟩
    refine ⟨_, o, by decide, rfl, hexec, ?_⟩
    intro c hpost
    obtain rfl := List.mem_singleton.1 hpost
    exact hmakes.head_mem

end UosioCdt.Dispatch
