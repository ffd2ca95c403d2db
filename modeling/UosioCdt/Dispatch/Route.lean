import UosioCdt.Dispatch.Exec
import Mathlib.Data.List.Find

/-!
# Which handler a call reaches

`expectedRoute` is the dispatcher's purpose in terms of the declared entries: the action entry on a
call of the contract itself, the entry for `code::action` on a notification, and `*::action` when
there is none. `takenRoute` is what a balanced body does; the two differ on the notifications that
a listed code keeps from the wildcard handlers (`Shadowed`).
-/

namespace UosioCdt.Dispatch

open StructuredCode Tools

/-! ## Routes -/

/-- What a run of `apply` does about its action: it calls a handler, fails with an error code, or
does neither. -/
inductive Route where
  | handler (index : UInt32)
  | assertCode (code : UInt64)
  | nothing
deriving DecidableEq, Repr

/-- The calls of handlers and of `uosio_assert_code` on a route. -/
def Route.calls (L : Linker) (p : Params) : Route → List Call
  | .handler index => [⟨index, [.i64 p.receiver, .i64 p.code]⟩]
  | .assertCode code => [⟨L.assertIdx, [.i32 0, .i64 code]⟩]
  | .nothing => []

lemma Route.calls_injective (L : Linker) (p : Params) : (Route.calls L p).Injective := by
  rintro (i | c | _) (j | d | _) h <;> simp_all [Route.calls]

/-- The function is the handler of an entry. -/
def Linker.isHandler (L : Linker) (index : UInt32) : Bool :=
  L.actions.any (fun e => decide (L.index e = index)) ||
    L.notifies.any fun e => decide (L.index (handlerOf e) = index)

/-- The function is a handler or `uosio_assert_code`. -/
def Linker.isTarget (L : Linker) (index : UInt32) : Bool :=
  L.isHandler index || decide (index = L.assertIdx)

lemma Linker.isHandler_action {L : Linker} {e : Str} (h : e ∈ L.actions) :
    L.isHandler (L.index e) = true := by
  rw [Linker.isHandler, Bool.or_eq_true, List.any_eq_true]
  exact .inl ⟨e, h, by simp⟩

lemma Linker.isHandler_notify {L : Linker} {e : Str} (h : e ∈ L.notifies) :
    L.isHandler (L.index (handlerOf e)) = true := by
  rw [Linker.isHandler, Bool.or_eq_true, List.any_eq_true, List.any_eq_true]
  exact .inr ⟨e, h, by simp⟩

/-- The entry for an action of the contract. -/
def Linker.actionFor (L : Linker) (action : UInt64) : Option Str :=
  L.actions.find? fun e => decide (stringToName (beforeColon e) = action)

/-- The entry declared for `code::action`. -/
def Linker.notifyFor (L : Linker) (code action : UInt64) : Option Str :=
  L.notifies.find? fun e => decide (beforeColon e ≠ ['*'] ∧ stringToName (beforeColon e) = code ∧
    stringToName (beforeColon (handlerOf e)) = action)

/-- The entry declared for `*::action`. -/
def Linker.wildcardFor (L : Linker) (action : UInt64) : Option Str :=
  L.notifies.find? fun e => decide (beforeColon e = ['*'] ∧
    stringToName (beforeColon (handlerOf e)) = action)

/-- The call is the notification of a failed deferred transaction. -/
def Params.IsOnerror (p : Params) : Prop :=
  p.code = stringToName uosioName ∧ p.action = stringToName onerrorName

instance (p : Params) : Decidable p.IsOnerror := by
  unfold Params.IsOnerror
  infer_instance

/-- Where a call belongs. -/
def expectedRoute (L : Linker) (p : Params) : Route :=
  if p.code = p.receiver then
    match L.actionFor p.action with
    | some e => .handler (L.index e)
    | none =>
      if p.receiver = stringToName uosioName then .nothing else .assertCode UOSIO_ERROR_NO_ACTION
  else
    match L.notifyFor p.code p.action with
    | some e => .handler (L.index (handlerOf e))
    | none =>
      if p.IsOnerror then .assertCode UOSIO_ERROR_ONERROR
      else
        match L.wildcardFor p.action with
        | some e => .handler (L.index (handlerOf e))
        | none => .nothing

/-! ## Declared entries -/

/-- The entries have valid names, and no two are declared for the same calls. -/
structure ValidEntries (L : Linker) : Prop where
  actionName : ∀ e ∈ L.actions, validateName (beforeColon e) = true
  notifyCode : ∀ e ∈ L.notifies, beforeColon e ≠ ['*'] → validateName (beforeColon e) = true
  notifyAction : ∀ e ∈ L.notifies, validateName (beforeColon (handlerOf e)) = true
  distinctActions : ∀ e ∈ L.actions, ∀ e' ∈ L.actions, beforeColon e = beforeColon e' → e = e'
  distinctNotifies : ∀ e ∈ L.notifies, ∀ e' ∈ L.notifies, beforeColon e = beforeColon e' →
    beforeColon (handlerOf e) = beforeColon (handlerOf e') → e = e'

/-- A search that at most one element answers finds that element. -/
lemma find?_eq_some_of_unique {α : Type} {l : List α} {q : α → Bool} {a : α}
    (hunique : ∀ x ∈ l, ∀ y ∈ l, q x = true → q y = true → x = y) :
    l.find? q = some a ↔ a ∈ l ∧ q a = true := by
  constructor
  · exact fun h => ⟨List.mem_of_find?_eq_some h, List.find?_some h⟩
  · rintro ⟨ha, hq⟩
    obtain ⟨x, hx⟩ := Option.isSome_iff_exists.mp (List.find?_isSome.mpr ⟨a, ha, hq⟩)
    rw [hx, hunique x (List.mem_of_find?_eq_some hx) a ha (List.find?_some hx) hq]

/-- The entry for an action is the only one with its name. -/
lemma ValidEntries.actionFor_eq_some_iff {L : Linker} (h : ValidEntries L) {action : UInt64}
    {e : Str} : L.actionFor action = some e ↔
      e ∈ L.actions ∧ stringToName (beforeColon e) = action := by
  rw [Linker.actionFor, find?_eq_some_of_unique, decide_eq_true_eq]
  intro x hx y hy hqx hqy
  rw [decide_eq_true_eq] at hqx hqy
  exact h.distinctActions x hx y hy
    (eq_of_stringToName_eq (h.actionName x hx) (h.actionName y hy) (hqx.trans hqy.symm))

/-! ## The route of a balanced body -/

/-- The handler a chain of `create_if` calls. -/
def chainRoute (L : Linker) (p : Params) (strs : List Str) : Route :=
  match selected p strs with
  | some str => .handler (L.index str)
  | none => .nothing

/-- The route through the notify dispatcher. -/
def notifyRoute (L : Linker) (p : Params) : Route :=
  if hasOnerrorHandler L.handlers = false ∧ p.IsOnerror then .assertCode UOSIO_ERROR_ONERROR
  else
    match specific L.handlers with
    | notif0 :: _ =>
      if p.code = stringToName notif0.1 then chainRoute L p notif0.2
      else chainRoute L p L.wildcards
    | [] => chainRoute L p L.wildcards

/-- The route through the action dispatcher. -/
def actionRoute (L : Linker) (p : Params) : Route :=
  match selected p L.actions with
  | some str => .handler (L.index str)
  | none =>
    if p.receiver = stringToName uosioName then .nothing else .assertCode UOSIO_ERROR_NO_ACTION

/-- The route through a balanced body. -/
def takenRoute (L : Linker) (p : Params) : Route :=
  if p.code = p.receiver then actionRoute L p else notifyRoute L p

/-- A listed code keeps the notification from the wildcard handler declared for its action. -/
def Shadowed (L : Linker) (p : Params) : Prop :=
  p.code ≠ p.receiver ∧ ¬ p.IsOnerror ∧
    (∃ e ∈ L.notifies, beforeColon e ≠ ['*'] ∧ stringToName (beforeColon e) = p.code) ∧
    L.notifyFor p.code p.action = none ∧ (L.wildcardFor p.action).isSome

/-- The chain of a code selects the first of its entries with the action. -/
lemma selected_get (L : Linker) (p : Params) (code : Str) :
    selected p (MultiMap.get L.handlers code) =
      (L.notifies.find? fun e => decide (beforeColon e = code ∧
        stringToName (beforeColon (handlerOf e)) = p.action)).map handlerOf := by
  rw [selected, L.get_handlers, List.find?_map, List.find?_filter]
  have hpred : (fun e => decide (decide (beforeColon e = code) = true ∧
        ((fun str => decide (stringToName (beforeColon str) = p.action)) ∘ handlerOf) e = true))
      = fun e => decide (beforeColon e = code ∧
        stringToName (beforeColon (handlerOf e)) = p.action) := by
    funext e
    simp
  rw [hpred]

/-- The chain of a code calls the first of its entries with the action. -/
lemma chainRoute_get (L : Linker) (p : Params) (code : Str) :
    chainRoute L p (MultiMap.get L.handlers code) =
      match L.notifies.find? fun e => decide (beforeColon e = code ∧
        stringToName (beforeColon (handlerOf e)) = p.action) with
      | some e => .handler (L.index (handlerOf e))
      | none => .nothing := by
  rw [chainRoute, selected_get]
  cases L.notifies.find? _ <;> rfl

lemma chainRoute_wildcards (L : Linker) (p : Params) :
    chainRoute L p L.wildcards =
      match L.wildcardFor p.action with
      | some e => .handler (L.index (handlerOf e))
      | none => .nothing :=
  chainRoute_get L p ['*']

lemma mem_notifies_code {L : Linker} {code : Str} :
    code ∈ MultiMap.keys (specific L.handlers) ↔
      code ≠ ['*'] ∧ ∃ e ∈ L.notifies, beforeColon e = code := by
  rw [← mem_specificCodes, Linker.specificCodes, List.mem_filter, List.mem_dedup, List.mem_map,
    decide_eq_true_eq]
  simp only [mem_notifies, List.mem_flatMap]
  exact and_comm

/-- A balanced contract lists at most one code. -/
lemma Linker.Balanced.specific_cases {L : Linker} (h : L.Balanced) :
    (specific L.handlers = [] ∧ ∀ e ∈ L.notifies, beforeColon e = ['*']) ∨
    ∃ code, specific L.handlers = [(code, MultiMap.get L.handlers code)] ∧
      (∃ e ∈ L.notifies, beforeColon e ≠ ['*'] ∧ beforeColon e = code) ∧
      ∀ e ∈ L.notifies, beforeColon e ≠ ['*'] → beforeColon e = code := by
  have hkeys : ∀ e ∈ L.notifies, beforeColon e ≠ ['*'] →
      beforeColon e ∈ MultiMap.keys (specific L.handlers) :=
    fun e he hne => mem_notifies_code.mpr ⟨hne, e, he, rfl⟩
  have hlen : specific L.handlers = [] ∨ ∃ notif0, specific L.handlers = [notif0] := by
    rcases h with ⟨-, hspec⟩ | ⟨-, hspec, -⟩
    · rw [← List.length_eq_zero_iff, ← L.length_specific, List.length_eq_zero_iff] at hspec
      exact .inl hspec
    · rw [← L.length_specific] at hspec
      exact .inr (List.length_eq_one_iff.mp hspec)
  rcases hlen with hnil | ⟨⟨code, hs⟩, hone⟩
  · refine .inl ⟨hnil, fun e he => ?_⟩
    by_contra hne
    simpa [hnil, MultiMap.keys] using hkeys e he hne
  · have hmem : (code, hs) ∈ L.handlers :=
      List.mem_of_mem_filter (hone ▸ List.mem_singleton_self (code, hs) :
        (code, hs) ∈ specific L.handlers)
    refine .inr ⟨code, ?_, ?_, fun e he hne => ?_⟩
    · rw [hone, MultiMap.get_of_mem L.sorted_handlers hmem]
    · obtain ⟨hne, e, he, rfl⟩ : code ≠ ['*'] ∧ ∃ e ∈ L.notifies, beforeColon e = code :=
        mem_notifies_code.mp (by simp [hone, MultiMap.keys])
      exact ⟨e, he, hne, rfl⟩
    · simpa [hone, MultiMap.keys] using hkeys e he hne

/-- A balanced contract has `post_dispatch` exactly when it lists a code. -/
lemma Linker.Balanced.post_eq_none_iff {L : Linker} (h : L.Balanced) :
    L.find postDispatch = none ↔ specific L.handlers = [] := by
  rw [← List.length_eq_zero_iff, L.length_specific]
  rcases h with ⟨hpost, hspec⟩ | ⟨hpost, hspec, -⟩
  · simp [hpost, hspec]
  · have hne := Option.isSome_iff_ne_none.1 hpost
    simp [hne, hspec]

lemma uosioName_ne_star : uosioName ≠ ['*'] := by decide

/-- `has_onerror_handler` says whether an entry is declared for `uosio::onerror`. -/
lemma ValidEntries.hasOnerrorHandler_iff {L : Linker} (h : ValidEntries L) :
    hasOnerrorHandler L.handlers = true ↔
      (L.notifyFor (stringToName uosioName) (stringToName onerrorName)).isSome := by
  simp only [hasOnerrorHandler, List.any_eq_true, decide_eq_true_eq, Linker.notifyFor,
    List.find?_isSome]
  constructor
  · rintro ⟨⟨code, hs⟩, hmem, rfl, notif1, h1, hname⟩
    obtain ⟨e, he, hcode, rfl⟩ := Linker.mem_handlers hmem h1
    exact ⟨e, he, hcode ▸ uosioName_ne_star, by rw [hcode], by rw [hname]⟩
  · rintro ⟨e, he, hne, hcode, hname⟩
    have hcode' : beforeColon e = uosioName :=
      eq_of_stringToName_eq (h.notifyCode e he hne) validateName_uosio hcode
    have hname' : beforeColon (handlerOf e) = onerrorName :=
      eq_of_stringToName_eq (h.notifyAction e he) validateName_onerror hname
    have hkey : uosioName ∈ MultiMap.keys L.handlers := by
      have := mem_notifies_code.mpr ⟨hcode' ▸ hne, e, he, hcode'⟩
      exact (List.filter_sublist.map _).subset this
    obtain ⟨⟨code, hs⟩, hmem, rfl⟩ := List.mem_map.mp hkey
    refine ⟨(uosioName, hs), hmem, rfl, handlerOf e, ?_, hname'⟩
    rw [← MultiMap.get_of_mem L.sorted_handlers hmem, L.get_handlers]
    exact List.mem_map.mpr ⟨e, List.mem_filter.mpr ⟨he, by simpa using hcode'⟩, rfl⟩

/-- The assertion on `uosio::onerror` is made when no entry is declared for it. -/
lemma ValidEntries.onerror_iff {L : Linker} (h : ValidEntries L) (p : Params) :
    (hasOnerrorHandler L.handlers = false ∧ p.IsOnerror) ↔
      (L.notifyFor p.code p.action = none ∧ p.IsOnerror) := by
  refine and_congr_left fun ⟨hcode, haction⟩ => ?_
  rw [hcode, haction, ← Option.not_isSome_iff_eq_none, ← h.hasOnerrorHandler_iff,
    Bool.not_eq_true]

/-- There is no entry for an action of a code that is not listed. -/
lemma Linker.notifyFor_eq_none {L : Linker} {code : UInt64}
    (hcode : ∀ e ∈ L.notifies, beforeColon e ≠ ['*'] → stringToName (beforeColon e) ≠ code)
    (action : UInt64) : L.notifyFor code action = none := by
  rw [Linker.notifyFor, List.find?_eq_none]
  intro e he
  simpa using fun hne heq => absurd heq (hcode e he hne)

/-- A balanced body takes a notification of a code it does not list to the wildcard handlers. -/
lemma notifyRoute_of_not_listed {L : Linker} (hbal : L.Balanced) (hvalid : ValidEntries L)
    {p : Params}
    (hcode : ∀ e ∈ L.notifies, beforeColon e ≠ ['*'] → stringToName (beforeColon e) ≠ p.code) :
    notifyRoute L p =
      if p.IsOnerror then .assertCode UOSIO_ERROR_ONERROR
      else
        match L.wildcardFor p.action with
        | some e => .handler (L.index (handlerOf e))
        | none => .nothing := by
  have hnone := Linker.notifyFor_eq_none hcode p.action
  have honerror : (hasOnerrorHandler L.handlers = false ∧ p.IsOnerror) ↔ p.IsOnerror := by
    rw [hvalid.onerror_iff, hnone]
    simp
  rw [notifyRoute, ← chainRoute_wildcards, if_congr honerror rfl rfl]
  rcases hbal.specific_cases with ⟨hnil, -⟩ | ⟨code, hone, ⟨e, he, hne, rfl⟩, -⟩
  · rw [hnil]
  · simp only [hone, if_neg fun heq => hcode e he hne (Eq.symm heq)]

/-- The entry for an action of the only listed code. -/
lemma Linker.find?_only (L : Linker) {listed : Str} {code : UInt64} (hne : listed ≠ ['*'])
    (hname : stringToName listed = code)
    (hall : ∀ e ∈ L.notifies, beforeColon e ≠ ['*'] → beforeColon e = listed) (action : UInt64) :
    L.notifies.find? (fun e => decide (beforeColon e = listed ∧
      stringToName (beforeColon (handlerOf e)) = action)) = L.notifyFor code action := by
  refine List.find?_congr fun e he => decide_eq_decide.mpr ?_
  constructor
  · rintro ⟨heq, haction⟩
    exact ⟨heq ▸ hne, heq ▸ hname, haction⟩
  · rintro ⟨hstar, -, haction⟩
    exact ⟨hall e he hstar, haction⟩

/-- A balanced body takes a notification of the code it lists to the entries of that code. -/
lemma notifyRoute_of_listed {L : Linker} (hbal : L.Balanced) (hvalid : ValidEntries L) {p : Params}
    (hcode : ∃ e ∈ L.notifies, beforeColon e ≠ ['*'] ∧ stringToName (beforeColon e) = p.code) :
    notifyRoute L p =
      match L.notifyFor p.code p.action with
      | some e => .handler (L.index (handlerOf e))
      | none => if p.IsOnerror then .assertCode UOSIO_ERROR_ONERROR else .nothing := by
  obtain ⟨e₀, he₀, hne₀, hname₀⟩ := hcode
  rcases hbal.specific_cases with ⟨-, hstar⟩ | ⟨code, hone, -, hall⟩
  · exact absurd (hstar e₀ he₀) hne₀
  · obtain rfl := hall e₀ he₀ hne₀
    have hfind := L.find?_only hne₀ hname₀ hall p.action
    rw [notifyRoute, if_congr (hvalid.onerror_iff p) rfl rfl]
    simp only [hone, hname₀, if_true, chainRoute_get, hfind]
    cases L.notifyFor p.code p.action <;> simp

/-- A balanced body takes every call to where it belongs, except the shadowed ones. -/
theorem takenRoute_eq_iff {L : Linker} (hbal : L.Balanced) (hvalid : ValidEntries L) (p : Params) :
    takenRoute L p = expectedRoute L p ↔ ¬ Shadowed L p := by
  by_cases hself : p.code = p.receiver
  · have heq : takenRoute L p = expectedRoute L p := by
      simp only [takenRoute, expectedRoute, if_pos hself]
      rfl
    simp [heq, Shadowed, hself]
  rw [takenRoute, expectedRoute, if_neg hself, if_neg hself]
  by_cases hlisted : ∃ e ∈ L.notifies, beforeColon e ≠ ['*'] ∧ stringToName (beforeColon e) = p.code
  · rw [notifyRoute_of_listed hbal hvalid hlisted]
    cases hfor : L.notifyFor p.code p.action with
    | some e => simp [Shadowed, hfor]
    | none =>
      by_cases honerror : p.IsOnerror
      · simp [Shadowed, honerror]
      · cases hwild : L.wildcardFor p.action <;>
          simp only [Shadowed, honerror, hlisted, hfor, hwild] <;> simp [hself]
  · have hcode : ∀ e ∈ L.notifies, beforeColon e ≠ ['*'] →
        stringToName (beforeColon e) ≠ p.code :=
      fun e he hne heq => hlisted ⟨e, he, hne, heq⟩
    rw [notifyRoute_of_not_listed hbal hvalid hcode, Linker.notifyFor_eq_none hcode]
    simp [Shadowed, hlisted]

end UosioCdt.Dispatch
