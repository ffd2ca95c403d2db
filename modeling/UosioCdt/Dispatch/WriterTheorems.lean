import UosioCdt.Dispatch.Writer
import Mathlib.Data.List.Dedup
import Mathlib.Data.List.Perm.Basic

/-!
# The instructions of the dispatcher, entry by entry

Facts about `Writer::createDispatchFunction` that do not run it:

* the entries of the object files, taken apart at their colons;
* `Linkable`, what the linker needs to write a body at all, and `dispatchInstrs_eq`, the body it
  then writes, as a total function of the entries;
* the handlers of a code in `notify_handlers` (`get_handlers`).
-/

namespace UosioCdt.Dispatch

open StructuredCode Tools

/-! ## Entries -/

/-- `name:func` -/
def actionEntry (name func : Str) : Str := name ++ ':' :: func

/-- `code::action:func` -/
def notifyEntry (code action func : Str) : Str := code ++ ':' :: ':' :: actionEntry action func

lemma dropWhile_append_colon {s : Str} (h : ':' ∉ s) (t : Str) :
    (s ++ ':' :: t).dropWhile (· ≠ ':') = ':' :: t := by
  induction s with
  | nil => simp
  | cons c s ih =>
    simp only [List.mem_cons, not_or] at h
    simpa [Ne.symm h.1] using ih h.2

lemma afterColon_append {s : Str} (h : ':' ∉ s) (t : Str) : afterColon (s ++ ':' :: t) = t := by
  rw [afterColon, dropWhile_append_colon h]

lemma afterColons_append {s : Str} (h : ':' ∉ s) (t : Str) :
    afterColons (s ++ ':' :: ':' :: t) = .ok t := by
  rw [afterColons, dropWhile_append_colon h]

lemma mem_notDispatched {hasDispatched es : List Str} {e : Str} :
    e ∈ notDispatched hasDispatched es ↔ e ∈ es ∧ e ∉ hasDispatched := by
  induction es generalizing hasDispatched with
  | nil => simp [notDispatched]
  | cons x es ih =>
    simp only [notDispatched]
    split
    · rename_i hx
      rw [ih, List.mem_cons]
      constructor
      · exact fun h => ⟨.inr h.1, h.2⟩
      · rintro ⟨rfl | h, hnot⟩
        · exact absurd hx hnot
        · exact ⟨h, hnot⟩
    · rename_i hx
      rw [List.mem_cons, ih, List.mem_cons, List.mem_cons]
      by_cases hex : e = x
      · subst hex
        simp [hx]
      · simp [hex]

lemma mem_actions {L : Linker} {e : Str} :
    e ∈ L.actions ↔ ∃ f ∈ L.objectFiles, e ∈ f.uosioActions := by
  simp [Linker.actions, mem_notDispatched]

lemma mem_notifies {L : Linker} {e : Str} :
    e ∈ L.notifies ↔ ∃ f ∈ L.objectFiles, e ∈ f.uosioNotify := by
  simp [Linker.notifies, mem_notDispatched]

/-! ## What the linker needs -/

/-- The linker has all it needs: `uosio_assert_code`, entries of the two forms, and a function
index for the function of every entry. -/
structure Linkable (L : Linker) : Prop where
  assertFound : ∃ i, L.find uosioAssertCode = some i ∧ i.toNat < L.symbolCount
  actions : ∀ f ∈ L.objectFiles, ∀ e ∈ f.uosioActions, ∃ name func,
    e = actionEntry name func ∧ ':' ∉ name ∧ (L.find func).isSome
  notifies : ∀ f ∈ L.objectFiles, ∀ e ∈ f.uosioNotify, ∃ code action func,
    e = notifyEntry code action func ∧ ':' ∉ code ∧ ':' ∉ action ∧ (L.find func).isSome

/-- The index of the function named behind the first colon. -/
def Linker.index (L : Linker) (str : Str) : UInt32 := (L.find (afterColon str)).getD 0

/-- What `notify_handlers` keeps of an entry. -/
def handlerOf (snotif : Str) : Str :=
  match afterColons snotif with
  | .ok rest => rest
  | .error _ => []

/-- `notify_handlers` when all entries are registered. -/
def Linker.handlers (L : Linker) : NotifyHandlers :=
  MultiMap.pushAll beforeColon handlerOf [] L.notifies

/-- The index of `uosio_assert_code`. -/
def Linker.assertIdx (L : Linker) : UInt32 := (L.find uosioAssertCode).getD 0

lemma Linkable.assertIndex_eq {L : Linker} (h : Linkable L) : assertIndex L = .ok L.assertIdx := by
  obtain ⟨i, hi, hlt⟩ := h.assertFound
  simp only [assertIndex, hi, if_pos hlt, Linker.assertIdx, Option.getD_some]

lemma Linkable.action_found {L : Linker} (h : Linkable L) {e : Str} (he : e ∈ L.actions) :
    (L.find (afterColon e)).isSome := by
  obtain ⟨f, hf, hef⟩ := mem_actions.mp he
  obtain ⟨name, func, rfl, hname, hfunc⟩ := h.actions f hf e hef
  rwa [actionEntry, afterColon_append hname]

lemma Linkable.notify_form {L : Linker} (h : Linkable L) {e : Str} (he : e ∈ L.notifies) :
    ∃ code action func, e = notifyEntry code action func ∧ ':' ∉ code ∧ ':' ∉ action ∧
      (L.find func).isSome := by
  obtain ⟨f, hf, hef⟩ := mem_notifies.mp he
  exact h.notifies f hf e hef

lemma handlerOf_notifyEntry {code : Str} (h : ':' ∉ code) (action func : Str) :
    handlerOf (notifyEntry code action func) = actionEntry action func := by
  rw [handlerOf, notifyEntry, afterColons_append h]

/-! ## The handlers of a code -/

lemma Linker.sorted_handlers (L : Linker) : MultiMap.Sorted L.handlers :=
  MultiMap.Sorted.pushAll (by simp [MultiMap.Sorted, MultiMap.keys]) _

/-- The handlers of a code are those of its entries, in order. -/
lemma Linker.get_handlers (L : Linker) (code : Str) :
    MultiMap.get L.handlers code
      = (L.notifies.filter (beforeColon · = code)).map handlerOf := by
  rw [Linker.handlers, MultiMap.get_pushAll (by simp [MultiMap.Sorted, MultiMap.keys]),
    MultiMap.get_nil, List.nil_append]
  congr!

/-- A handler of the map is the rest of an entry. -/
lemma Linker.mem_handlers {L : Linker} {code : Str} {hs : List Str} (hmem : (code, hs) ∈ L.handlers)
    {notif1 : Str} (h1 : notif1 ∈ hs) :
    ∃ e ∈ L.notifies, beforeColon e = code ∧ notif1 = handlerOf e := by
  rw [← MultiMap.get_of_mem L.sorted_handlers hmem, L.get_handlers, List.mem_map] at h1
  obtain ⟨e, he, rfl⟩ := h1
  rw [List.mem_filter, decide_eq_true_eq] at he
  exact ⟨e, he.1, he.2, rfl⟩

lemma Linkable.handler_found {L : Linker} (h : Linkable L) {e : Str} (he : e ∈ L.notifies) :
    (L.find (afterColon (handlerOf e))).isSome := by
  obtain ⟨code, action, func, rfl, hcode, haction, hfunc⟩ := h.notify_form he
  rwa [handlerOf_notifyEntry hcode, actionEntry, afterColon_append haction]

/-! ## The instructions, when everything is found -/

lemma ok_bind {α β : Type} (a : α) (f : α → Except LinkError β) : (Except.ok a >>= f) = f a := rfl

/-- The instructions of `create_if` with the index found. -/
def ifInstrs (L : Linker) (str : Str) (needElse : Bool) : List Instr :=
  (if needElse then [.else_] else []) ++
    [.op (.i64Const (stringToName (beforeColon str))), .op (.getLocal 2), .op .i64Eq, .if_,
      .op (.getLocal 0), .op (.getLocal 1), .op (.call (L.index str))]

/-- The instructions of the loop of `create_if`. -/
def chainInstrs (L : Linker) : List Str → Bool → List Instr
  | [], _ => []
  | str :: strs, needElse => ifInstrs L str needElse ++ chainInstrs L strs true

lemma createIfs_eq {L : Linker} {strs : List Str} (needElse : Bool)
    (h : ∀ str ∈ strs, (L.find (afterColon str)).isSome) :
    createIfs L strs needElse = .ok (chainInstrs L strs needElse) := by
  induction strs generalizing needElse with
  | nil => rfl
  | cons str strs ih =>
    obtain ⟨i, hi⟩ := Option.isSome_iff_exists.mp (h str List.mem_cons_self)
    simp only [createIfs, createIf, funcIndex, hi,
      ih true fun s hs => h s (List.mem_cons_of_mem _ hs), chainInstrs, ifInstrs, Linker.index,
      Option.getD_some]
    rfl

/-- The instructions of the loop over the codes. -/
def codesInstrs (L : Linker) : NotifyHandlers → Bool → List Instr
  | [], _ => []
  | notif0 :: rest, needElse =>
    (if needElse then [.else_] else []) ++
      [.op (.i64Const (stringToName notif0.1)), .op (.getLocal 1), .op .i64Eq, .if_] ++
      chainInstrs L notif0.2 false ++ List.replicate notif0.2.length .end_ ++
      codesInstrs L rest true

lemma createCodes_eq {L : Linker} {m : NotifyHandlers} (needElse : Bool)
    (h : ∀ notif0 ∈ m, ∀ str ∈ notif0.2, (L.find (afterColon str)).isSome) :
    createCodes L m needElse = .ok (codesInstrs L m needElse) := by
  induction m generalizing needElse with
  | nil => rfl
  | cons notif0 m ih =>
    simp only [createCodes, createIfs_eq false (h notif0 List.mem_cons_self),
      ih true fun n hn => h n (List.mem_cons_of_mem _ hn), codesInstrs]
    rfl

lemma registerNotify_eq {es : List Str} (m : NotifyHandlers)
    (h : ∀ e ∈ es, afterColons e = .ok (handlerOf e)) :
    registerNotify m es = .ok (MultiMap.pushAll beforeColon handlerOf m es) := by
  induction es generalizing m with
  | nil => rfl
  | cons e es ih =>
    simp only [registerNotify, h e List.mem_cons_self, MultiMap.pushAll_cons,
      ← ih _ fun x hx => h x (List.mem_cons_of_mem _ hx)]
    rfl

/-- `post_dispatch` behind the assertion on actions. -/
def actionPost (L : Linker) : List Instr :=
  match L.find postDispatch with
  | some postIdx => .else_ :: callPost postIdx
  | none => []

/-- `post_dispatch` behind the wildcard handlers. -/
def notifyPost (L : Linker) : List Instr :=
  match L.find postDispatch with
  | some postIdx => .else_ :: (callPost postIdx ++ [.end_])
  | none => []

/-- The instructions of `create_action_dispatch`. -/
def actionInstrs (L : Linker) : List Instr :=
  chainInstrs L L.actions false ++ (if L.actions.length > 0 then [.else_] else []) ++
    [.op (.getLocal 0), .op (.i64Const (stringToName uosioName)), .op .i64Ne, .if_,
      .op .i32Zero, .op (.i64Const UOSIO_ERROR_NO_ACTION), .op (.call L.assertIdx)] ++
    actionPost L ++ [.end_] ++ List.replicate L.actions.length .end_

/-- The wildcard handlers. -/
def Linker.wildcards (L : Linker) : List Str := MultiMap.get L.handlers ['*']

/-- The instructions of `create_notify_dispatch`. -/
def notifyInstrs (L : Linker) : List Instr :=
  (if hasOnerrorHandler L.handlers then [] else assertOnerror L.assertIdx) ++
    codesInstrs L (specific L.handlers) false ++
    (if (specific L.handlers).isEmpty then [] else [.else_]) ++
    chainInstrs L L.wildcards false ++ notifyPost L ++ List.replicate L.wildcards.length .end_

/-- The call of `pre_dispatch` and the IF on its result. -/
def preInstrs (L : Linker) : List Instr :=
  match L.find preDispatch with
  | some preIdx =>
    [.op (.getLocal 0), .op (.getLocal 1), .op (.getLocal 2), .op (.call preIdx), .if_]
  | none => []

/-- The END of that IF. -/
def preEnd (L : Linker) : List Instr :=
  match L.find preDispatch with
  | some _ => [.end_]
  | none => []

/-- The instructions of the body. -/
def bodyInstrs (L : Linker) : List Instr :=
  callCtors L ++ preInstrs L ++ [.op (.getLocal 0), .op (.getLocal 1), .op .i64Eq, .if_] ++
    actionInstrs L ++ [.else_] ++ notifyInstrs L ++ [.end_] ++ callDtors L ++ preEnd L ++ [.end_]

lemma Linkable.createActionDispatch_eq {L : Linker} (h : Linkable L) :
    createActionDispatch L = .ok (actionInstrs L) := by
  simp only [createActionDispatch, createIfs_eq false fun e he => h.action_found he,
    h.assertIndex_eq]
  rfl

lemma Linkable.createNotifyDispatch_eq {L : Linker} (h : Linkable L) :
    createNotifyDispatch L = .ok (notifyInstrs L) := by
  have hreg : registerNotify [] L.notifies = .ok L.handlers := by
    refine registerNotify_eq [] fun e he => ?_
    obtain ⟨code, action, func, rfl, hcode, -⟩ := h.notify_form he
    rw [handlerOf_notifyEntry hcode, notifyEntry, afterColons_append hcode]
  have hcodes : ∀ notif0 ∈ specific L.handlers, ∀ str ∈ notif0.2,
      (L.find (afterColon str)).isSome := by
    rintro ⟨code, hs⟩ hmem str hstr
    obtain ⟨e, he, -, rfl⟩ := Linker.mem_handlers (List.mem_of_mem_filter hmem) hstr
    exact h.handler_found he
  have hwild : ∀ str ∈ L.wildcards, (L.find (afterColon str)).isSome := by
    intro str hstr
    rw [Linker.wildcards, L.get_handlers, List.mem_map] at hstr
    obtain ⟨e, he, rfl⟩ := hstr
    exact h.handler_found (List.mem_of_mem_filter he)
  have hifs := createIfs_eq false hwild
  rw [Linker.wildcards] at hifs
  simp only [createNotifyDispatch, h.assertIndex_eq, hreg, ok_bind, createCodes_eq false hcodes,
    hifs]
  rfl

/-- The body the linker writes when it has all it needs. -/
theorem Linkable.dispatchInstrs_eq {L : Linker} (h : Linkable L) :
    dispatchInstrs L = .ok (bodyInstrs L) := by
  simp only [dispatchInstrs, h.createActionDispatch_eq, h.createNotifyDispatch_eq]
  rfl

end UosioCdt.Dispatch
