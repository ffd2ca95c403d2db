import UosioCdt.Dispatch.Structure

/-!
# Running the dispatcher

The meaning of the dispatcher's instructions: `apply(receiver, code, action)` with a value stack
and the list of the calls made so far. What a called function does is a parameter (`Env`); it sees
the calls before it and its arguments, and returns or traps.

The second half resolves the brackets of a balanced body (`bodyBlock`) and runs its chains: a chain
of `create_if` calls the first entry whose name is the action (`exec_chainBlock`).
-/

namespace UosioCdt.Dispatch

open StructuredCode Tools

/-! ## The machine -/

/-- A value on the stack. -/
inductive Val where
  | i32 (v : UInt32)
  | i64 (v : UInt64)
deriving DecidableEq, Repr

/-- A call: the index of the function and its arguments. -/
structure Call where
  index : UInt32
  args : List Val
deriving DecidableEq, Repr

inductive CallResult where
  | ret (results : List Val)
  | trap

/-- A function as its caller sees it: the number of arguments it takes, and what it does with them
behind the calls made before. -/
structure Callee where
  arity : ℕ
  run : List Call → List Val → CallResult

abbrev Env := UInt32 → Callee

structure State where
  stack : List Val
  calls : List Call

/-- The parameters of `apply`. -/
structure Params where
  receiver : UInt64
  code : UInt64
  action : UInt64

/-- `GET_LOCAL` -/
def Params.get (p : Params) (i : UInt32) : Option Val :=
  if i = 0 then some (.i64 p.receiver)
  else if i = 1 then some (.i64 p.code)
  else if i = 2 then some (.i64 p.action)
  else none

/-- Call a function with arguments already taken from the stack. -/
def invoke (env : Env) (index : UInt32) (args : List Val) (s : State) : Outcome State :=
  match (env index).run s.calls args with
  | .ret results =>
    .done { stack := results.reverse ++ s.stack, calls := s.calls ++ [⟨index, args⟩] }
  | .trap => .trap { s with calls := s.calls ++ [⟨index, args⟩] }

def execPlain (env : Env) (p : Params) : Plain → State → Outcome State
  | .call index, s =>
    if (env index).arity ≤ s.stack.length then
      invoke env index (s.stack.take (env index).arity).reverse
        { s with stack := s.stack.drop (env index).arity }
    else .stuck
  | .getLocal i, s =>
    match p.get i with
    | some v => .done { s with stack := v :: s.stack }
    | none => .stuck
  | .i64Eq, s =>
    match s.stack with
    | .i64 b :: .i64 a :: rest => .done { s with stack := .i32 (if a = b then 1 else 0) :: rest }
    | _ => .stuck
  | .i64Ne, s =>
    match s.stack with
    | .i64 b :: .i64 a :: rest => .done { s with stack := .i32 (if a = b then 0 else 1) :: rest }
    | _ => .stuck
  | .i32Zero, s => .done { s with stack := .i32 0 :: s.stack }
  | .i64Const v, s => .done { s with stack := .i64 v :: s.stack }

/-- The condition of an IF. -/
def popCondition (s : State) : Option (Bool × State) :=
  match s.stack with
  | .i32 v :: rest => some (decide (v ≠ 0), { s with stack := rest })
  | _ => none

def execBlock (env : Env) (p : Params) (b : Block Plain) (s : State) : Outcome State :=
  b.run (execPlain env p) popCondition s

/-- Run the content of a function body; `none` when it is not one. -/
def execBody (env : Env) (p : Params) (content : List UInt8) : Option (Outcome State) := do
  let instrs ← decodeBody content
  let block ← parseBody instrs
  return execBlock env p block ⟨[], []⟩

/-! ## The blocks of the body -/

/-- Plain operations in front of a block. -/
def ops (os : List Plain) (b : Block Plain) : Block Plain := os.foldr .op b

@[simp] lemma flatten_ops (os : List Plain) (b : Block Plain) :
    (ops os b).flatten = os.map .op ++ b.flatten := by
  induction os with
  | nil => rfl
  | cons o os ih =>
    simp only [ops, List.foldr_cons, Block.flatten, List.map_cons, List.cons_append] at ih ⊢
    rw [ih]

/-- The call of the handler of an entry. -/
def handlerBlock (L : Linker) (str : Str) : Block Plain :=
  ops [.getLocal 0, .getLocal 1, .call (L.index str)] .nil

/-- The test of an entry against the action. -/
def actionTest (str : Str) : List Plain :=
  [.i64Const (stringToName (beforeColon str)), .getLocal 2, .i64Eq]

/-- A chain of `create_if` with `e` in the ELSE of its last IF. -/
def chainBlock (L : Linker) : List Str → Block Plain → Block Plain
  | [], e => e
  | str :: strs, e => ops (actionTest str) (.ifElse (handlerBlock L str) (chainBlock L strs e) .nil)

/-- A chain of `create_if` without an ELSE behind its last IF. -/
def chainThen (L : Linker) : List Str → Block Plain
  | [] => .nil
  | [str] => ops (actionTest str) (.ifThen (handlerBlock L str) .nil)
  | str :: strs => ops (actionTest str) (.ifElse (handlerBlock L str) (chainThen L strs) .nil)

lemma chainInstrs_true (L : Linker) (str : Str) (strs : List Str) :
    chainInstrs L (str :: strs) true = .else_ :: chainInstrs L (str :: strs) false := rfl

lemma flatten_chainBlock (L : Linker) (str : Str) (strs : List Str) (e : Block Plain) :
    (chainBlock L (str :: strs) e).flatten
      = chainInstrs L (str :: strs) false ++
        .else_ :: (e.flatten ++ List.replicate (strs.length + 1) .end_) := by
  induction strs generalizing str with
  | nil =>
    simp [chainBlock, handlerBlock, actionTest, chainInstrs, ifInstrs, Block.flatten]
  | cons str' strs ih =>
    rw [chainBlock, chainInstrs, chainInstrs_true]
    simp [Block.flatten, ih, handlerBlock, actionTest, ifInstrs,
      List.replicate_succ' (n := strs.length + 1)]

lemma flatten_chainThen (L : Linker) (strs : List Str) :
    (chainThen L strs).flatten = chainInstrs L strs false ++ List.replicate strs.length .end_ := by
  match strs with
  | [] => rfl
  | [str] => simp [chainThen, handlerBlock, actionTest, chainInstrs, ifInstrs, Block.flatten]
  | str :: str' :: strs =>
    have ih := flatten_chainThen L (str' :: strs)
    rw [chainThen, chainInstrs, chainInstrs_true]
    · simp [Block.flatten, ih, handlerBlock, actionTest, ifInstrs,
        List.replicate_succ' (n := strs.length + 1)]
    · simp

/-- The arguments of the hooks. -/
def pushParams : List Plain := [.getLocal 0, .getLocal 1, .getLocal 2]

/-- The assertion that no action was found. -/
def assertBlock (L : Linker) : Block Plain :=
  ops [.i32Zero, .i64Const UOSIO_ERROR_NO_ACTION, .call L.assertIdx] .nil

def receiverTest : List Plain := [.getLocal 0, .i64Const (stringToName uosioName), .i64Ne]

/-- What the action dispatcher does when no entry has the action. -/
def noActionBlock (L : Linker) : Block Plain :=
  match L.find postDispatch with
  | some postIdx =>
    ops receiverTest
      (.ifElse (assertBlock L) (ops (pushParams ++ [.call postIdx]) .nil) .nil)
  | none => ops receiverTest (.ifThen (assertBlock L) .nil)

def onerrorAssertBlock (L : Linker) : Block Plain :=
  ops [.i64Const (stringToName uosioName), .getLocal 1, .i64Eq]
    (.ifThen (ops [.i64Const (stringToName onerrorName), .getLocal 2, .i64Eq]
      (.ifThen (ops [.i32Zero, .i64Const UOSIO_ERROR_ONERROR, .call L.assertIdx] .nil) .nil)) .nil)

/-- The assertion on `uosio::onerror`, unless there is a handler for it. -/
def onerrorBlock (L : Linker) : Block Plain :=
  if hasOnerrorHandler L.handlers then .nil else onerrorAssertBlock L

/-- The notify handlers of a balanced contract: only wildcards, or one code with the wildcards and
`post_dispatch` in its ELSE. -/
def notifyChain (L : Linker) : Block Plain :=
  match L.find postDispatch, specific L.handlers with
  | some postIdx, notif0 :: _ =>
    ops [.i64Const (stringToName notif0.1), .getLocal 1, .i64Eq]
      (.ifElse (chainThen L notif0.2)
        (chainBlock L L.wildcards (ops (pushParams ++ [.call postIdx]) .nil)) .nil)
  | _, _ => chainThen L L.wildcards

def dtorsBlock (L : Linker) : Block Plain :=
  match L.find cxaFinalize with
  | some dtorsIdx =>
    if dtorsIdx ≠ 0 ∧ dtorsIdx.toNat < L.symbolCount then ops [.i32Zero, .call dtorsIdx] .nil
    else .nil
  | none => .nil

/-- The dispatcher behind `pre_dispatch`. -/
def dispatchBlock (L : Linker) : Block Plain :=
  ops [.getLocal 0, .getLocal 1, .i64Eq]
    (.ifElse (chainBlock L L.actions (noActionBlock L))
      ((onerrorBlock L).append (notifyChain L)) (dtorsBlock L))

def preBlock (L : Linker) : Block Plain :=
  match L.find preDispatch with
  | some preIdx => ops (pushParams ++ [.call preIdx]) (.ifThen (dispatchBlock L) .nil)
  | none => dispatchBlock L

/-- The block of a balanced body. -/
def bodyBlock (L : Linker) : Block Plain :=
  match L.find wasmCallCtors with
  | some ctorsIdx => if ctorsIdx ≠ 0 then ops [.call ctorsIdx] (preBlock L) else preBlock L
  | none => preBlock L

/-! ## The blocks are the body -/

lemma flatten_noActionBlock (L : Linker) :
    (noActionBlock L).flatten =
      [.op (.getLocal 0), .op (.i64Const (stringToName uosioName)), .op .i64Ne, .if_,
        .op .i32Zero, .op (.i64Const UOSIO_ERROR_NO_ACTION), .op (.call L.assertIdx)] ++
      actionPost L ++ [.end_] := by
  cases hpost : L.find postDispatch <;>
    simp [noActionBlock, actionPost, hpost, receiverTest, assertBlock, pushParams, callPost,
      Block.flatten]

lemma flatten_actions (L : Linker) :
    (chainBlock L L.actions (noActionBlock L)).flatten = actionInstrs L := by
  rw [actionInstrs]
  cases L.actions with
  | nil => simp [chainBlock, chainInstrs, flatten_noActionBlock]
  | cons a as => simp [flatten_chainBlock, flatten_noActionBlock]

lemma flatten_onerrorBlock (L : Linker) :
    (onerrorBlock L).flatten
      = if hasOnerrorHandler L.handlers then [] else assertOnerror L.assertIdx := by
  unfold onerrorBlock
  split
  · rfl
  · simp [onerrorAssertBlock, assertOnerror, Block.flatten]

lemma flatten_notifyChain {L : Linker} (h : L.Balanced) :
    (notifyChain L).flatten =
      codesInstrs L (specific L.handlers) false ++
        (if (specific L.handlers).isEmpty then [] else [.else_]) ++
        chainInstrs L L.wildcards false ++ notifyPost L ++
        List.replicate L.wildcards.length .end_ := by
  rcases h with ⟨hpost, hspec⟩ | ⟨hpost, hspec, hwild⟩
  · rw [← List.length_eq_zero_iff, ← L.length_specific, List.length_eq_zero_iff] at hspec
    simp [notifyChain, notifyPost, hpost, hspec, flatten_chainThen, codesInstrs]
  · obtain ⟨postIdx, hpost⟩ := Option.isSome_iff_exists.mp hpost
    rw [← L.length_specific] at hspec
    obtain ⟨notif0, hspec⟩ := List.length_eq_one_iff.mp hspec
    obtain ⟨w, ws, hw⟩ := List.exists_cons_of_ne_nil (L.wildcards_ne_nil_iff.mpr hwild)
    simp [notifyChain, notifyPost, hpost, hspec, hw, flatten_chainThen, flatten_chainBlock,
      codesInstrs, Block.flatten, pushParams, callPost, List.replicate_succ' (n := ws.length)]
    rw [← List.cons_append, ← List.replicate_succ, List.replicate_succ', List.append_assoc]
    rfl

/-- The body of a balanced contract is its block and the END of the function. -/
theorem flatten_bodyBlock {L : Linker} (h : L.Balanced) :
    (bodyBlock L).flatten ++ [.end_] = bodyInstrs L := by
  have hdtors : (dtorsBlock L).flatten = callDtors L := by
    cases h : L.find cxaFinalize with
    | none => simp [dtorsBlock, callDtors, h, Block.flatten]
    | some dtorsIdx =>
      simp only [dtorsBlock, callDtors, h]
      split <;> simp [Block.flatten]
  have hdispatch : (dispatchBlock L).flatten =
      [.op (.getLocal 0), .op (.getLocal 1), .op .i64Eq, .if_] ++ actionInstrs L ++ [.else_] ++
        notifyInstrs L ++ [.end_] ++ callDtors L := by
    simp [dispatchBlock, notifyInstrs, Block.flatten, flatten_actions, flatten_onerrorBlock,
      flatten_notifyChain h, hdtors]
  have hpre : (preBlock L).flatten =
      preInstrs L ++ (dispatchBlock L).flatten ++ preEnd L := by
    cases h : L.find preDispatch <;>
      simp [preBlock, preInstrs, preEnd, h, Block.flatten, pushParams]
  have hbody : (bodyBlock L).flatten = callCtors L ++ (preBlock L).flatten := by
    cases h : L.find wasmCallCtors with
    | none => simp [bodyBlock, callCtors, h]
    | some ctorsIdx =>
      simp only [bodyBlock, callCtors, h]
      split <;> simp
  rw [hbody, hpre, hdispatch]
  simp [bodyInstrs]

/-- Running the content of a balanced contract runs its block. -/
theorem execBody_bodyContent {L : Linker} (hlink : Linkable L) (h : L.Balanced) (env : Env)
    (p : Params) {content : List UInt8} (hc : bodyContent L = .ok content) :
    execBody env p content = some (execBlock env p (bodyBlock L) ⟨[], []⟩) := by
  rw [bodyContent, hlink.dispatchInstrs_eq, ok_bind] at hc
  obtain rfl := Except.ok.inj hc
  rw [execBody, decodeBody_encode, ← flatten_bodyBlock h]
  simp [parseBody_flatten]

/-! ## Running the chains -/

section run

variable (env : Env) (p : Params)

lemma exec_ops_cons (o : Plain) (os : List Plain) (b : Block Plain) (s : State) :
    execBlock env p (ops (o :: os) b) s
      = (execPlain env p o s).andThen (execBlock env p (ops os b)) := rfl

/-- Two 64-bit operands and their comparison. -/
lemma exec_test {o₁ o₂ o : Plain} {v₁ v₂ : UInt64} {c : Bool} (b : Block Plain) (s : State)
    (h₁ : ∀ s, execPlain env p o₁ s = .done { s with stack := .i64 v₁ :: s.stack })
    (h₂ : ∀ s, execPlain env p o₂ s = .done { s with stack := .i64 v₂ :: s.stack })
    (ho : (o = .i64Eq ∧ c = decide (v₁ = v₂)) ∨ (o = .i64Ne ∧ c = decide (v₁ ≠ v₂))) :
    execBlock env p (ops [o₁, o₂, o] b) s
      = execBlock env p b { s with stack := .i32 (if c then 1 else 0) :: s.stack } := by
  rw [exec_ops_cons, h₁]
  simp only [Outcome.andThen]
  rw [exec_ops_cons, h₂]
  simp only [Outcome.andThen]
  rw [exec_ops_cons]
  rcases ho with ⟨rfl, rfl⟩ | ⟨rfl, rfl⟩
  · simp [execPlain, Outcome.andThen, ops]
  · by_cases hv : v₁ = v₂ <;> simp [execPlain, Outcome.andThen, ops, hv]

lemma exec_ifElse (t e rest : Block Plain) (c : Bool) (s : State) :
    execBlock env p (.ifElse t e rest) { s with stack := .i32 (if c then 1 else 0) :: s.stack }
      = (if c then execBlock env p t s else execBlock env p e s).andThen
          (execBlock env p rest) := by
  cases c <;> rfl

lemma exec_ifThen (t rest : Block Plain) (c : Bool) (s : State) :
    execBlock env p (.ifThen t rest) { s with stack := .i32 (if c then 1 else 0) :: s.stack }
      = (if c then execBlock env p t s else .done s).andThen (execBlock env p rest) := by
  cases c <;> rfl

/-- An IF on a condition that is not zero. -/
lemma exec_ifThen_of_ne {v : UInt32} (hv : v ≠ 0) (t rest : Block Plain) (s : State) :
    execBlock env p (.ifThen t rest) { s with stack := .i32 v :: s.stack }
      = (execBlock env p t s).andThen (execBlock env p rest) := by
  simp [execBlock, Block.run, popCondition, hv]
  rfl

lemma andThen_exec_nil (o : Outcome State) : o.andThen (execBlock env p .nil) = o := by
  cases o <;> rfl

variable {env p}

/-- A call with its arguments on top of the stack. -/
lemma exec_call {i : UInt32} (args : List Val) (b : Block Plain) (s : State)
    (h : args.length = (env i).arity) :
    execBlock env p (ops [.call i] b) { s with stack := args.reverse ++ s.stack }
      = (invoke env i args s).andThen (execBlock env p b) := by
  have hcall : execPlain env p (.call i) { s with stack := args.reverse ++ s.stack }
      = invoke env i args s := by
    have hlen : (env i).arity = args.reverse.length := by rw [List.length_reverse, h]
    simp [execPlain, hlen]
  rw [exec_ops_cons, hcall]
  rfl

/-- The call of a handler, which takes the receiver and the code. -/
lemma exec_handlerBlock {L : Linker} {str : Str} (h : (env (L.index str)).arity = 2) (s : State) :
    execBlock env p (handlerBlock L str) s
      = invoke env (L.index str) [.i64 p.receiver, .i64 p.code] s :=
  (exec_call [.i64 p.receiver, .i64 p.code] .nil s h.symm).trans (andThen_exec_nil env p _)

/-- The call of a hook, which takes the parameters. -/
lemma exec_hook {i : UInt32} (h : (env i).arity = 3) (b : Block Plain) (s : State) :
    execBlock env p (ops (pushParams ++ [.call i]) b) s
      = (invoke env i [.i64 p.receiver, .i64 p.code, .i64 p.action] s).andThen
          (execBlock env p b) :=
  exec_call [.i64 p.receiver, .i64 p.code, .i64 p.action] b s h.symm

/-- The call of `uosio_assert_code`, which takes false and a code. -/
lemma exec_assertCode {i : UInt32} (code : UInt64) (h : (env i).arity = 2) (s : State) :
    execBlock env p (ops [.i32Zero, .i64Const code, .call i] .nil) s
      = invoke env i [.i32 0, .i64 code] s :=
  (exec_call [.i32 0, .i64 code] .nil s h.symm).trans (andThen_exec_nil env p _)

/-- The test of a parameter against a constant. -/
lemma exec_constTest (n : UInt64) {i : UInt32} {v : UInt64} (hi : p.get i = some (.i64 v))
    (b : Block Plain) (s : State) :
    execBlock env p (ops [.i64Const n, .getLocal i, .i64Eq] b) s
      = execBlock env p b
          { s with stack := .i32 (if decide (n = v) then 1 else 0) :: s.stack } := by
  have hget : ∀ s, execPlain env p (.getLocal i) s
      = .done { s with stack := .i64 v :: s.stack } := fun s => by simp [execPlain, hi]
  exact exec_test env p b s (fun _ => rfl) hget (.inl ⟨rfl, rfl⟩)

/-- The test whether the contract itself is called. -/
lemma exec_selfTest (b : Block Plain) (s : State) :
    execBlock env p (ops [.getLocal 0, .getLocal 1, .i64Eq] b) s
      = execBlock env p b { s with
          stack := .i32 (if decide (p.receiver = p.code) then 1 else 0) :: s.stack } :=
  exec_test env p b s (fun _ => rfl) (fun _ => rfl) (.inl ⟨rfl, rfl⟩)

lemma exec_receiverTest (b : Block Plain) (s : State) :
    execBlock env p (ops receiverTest b) s
      = execBlock env p b { s with
          stack := .i32 (if decide (p.receiver ≠ stringToName uosioName) then 1 else 0)
            :: s.stack } :=
  exec_test env p b s (fun _ => rfl) (fun _ => rfl) (.inr ⟨rfl, rfl⟩)

/-- The entry a chain of `create_if` selects. -/
def selected (p : Params) (strs : List Str) : Option Str :=
  strs.find? fun str => decide (stringToName (beforeColon str) = p.action)

/-- The handler of an entry, called on the parameters. -/
def callHandler (env : Env) (L : Linker) (p : Params) (str : Str) (s : State) : Outcome State :=
  invoke env (L.index str) [.i64 p.receiver, .i64 p.code] s

/-- A chain with an ELSE calls the selected handler, or runs the ELSE. -/
lemma exec_chainBlock {L : Linker} {strs : List Str} (e : Block Plain) (s : State)
    (h : ∀ str ∈ strs, (env (L.index str)).arity = 2) :
    execBlock env p (chainBlock L strs e) s =
      match selected p strs with
      | some str => callHandler env L p str s
      | none => execBlock env p e s := by
  induction strs with
  | nil => rfl
  | cons str strs ih =>
    rw [chainBlock, actionTest, exec_constTest _ rfl, exec_ifElse, andThen_exec_nil,
      exec_handlerBlock (h str List.mem_cons_self),
      ih fun x hx => h x (List.mem_cons_of_mem _ hx)]
    by_cases hname : stringToName (beforeColon str) = p.action <;>
      simp [selected, hname, callHandler]

/-- A chain without an ELSE calls the selected handler, or nothing. -/
lemma exec_chainThen {L : Linker} {strs : List Str} (s : State)
    (h : ∀ str ∈ strs, (env (L.index str)).arity = 2) :
    execBlock env p (chainThen L strs) s =
      match selected p strs with
      | some str => callHandler env L p str s
      | none => .done s := by
  match strs, h with
  | [], _ => rfl
  | [str], h =>
    rw [chainThen, actionTest, exec_constTest _ rfl, exec_ifThen, andThen_exec_nil,
      exec_handlerBlock (h str List.mem_cons_self)]
    by_cases hname : stringToName (beforeColon str) = p.action <;>
      simp [selected, hname, callHandler]
  | str :: str' :: strs, h =>
    have hrest : ∀ x ∈ str' :: strs, (env (L.index x)).arity = 2 :=
      fun x hx => h x (List.mem_cons_of_mem _ hx)
    have ih := exec_chainThen s hrest
    rw [chainThen, actionTest, exec_constTest _ rfl, exec_ifElse, andThen_exec_nil,
      exec_handlerBlock (h str List.mem_cons_self), ih]
    by_cases hname : stringToName (beforeColon str) = p.action <;>
      simp [selected, List.find?_cons (a := str), hname, callHandler]
    simp

end run

end UosioCdt.Dispatch
