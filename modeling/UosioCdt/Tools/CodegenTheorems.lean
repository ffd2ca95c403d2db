import Mathlib.Data.List.Infix
import Mathlib.Data.List.Induction
import UosioCdt.Lib.Registration
import UosioCdt.Tools.Codegen

/-!
# Theorems: which handlers get a dispatch stub

`cg.actions` and `cg.notify_handlers` hold the names of handlers and the names of their methods, so
a handler takes two names, and it gets a stub when both are free.
-/

namespace UosioCdt.Tools.Codegen

open Registration

/-! ## The handlers that are declared -/

inductive Kind where
  | action
  | notify
deriving DecidableEq

variable {μ : Type} (M : Methods μ)

/-- The name under which a declaration is a handler of the kind. -/
def handlerName : Kind → CXXMethodDecl μ → Option Str
  | .action, ⟨m, .action attrName⟩ => some (getActionName M attrName m)
  | .notify, ⟨_, .notify code act⟩ => some (getNotifyPair code act)
  | _, _ => none

/-- The methods that are handlers of the kind, with the names of these. -/
def handlers (k : Kind) (decls : List (CXXMethodDecl μ)) : List (μ × Str) :=
  decls.filterMap fun d => (handlerName M k d).map fun name => (d.method, name)

/-- The names that a handler takes. -/
def names (h : μ × Str) : List Str := [h.2, M.nameAsString h.1]

/-- Two different methods claim one name. -/
def Conflict (decls : List (CXXMethodDecl μ)) : Prop :=
  ∃ k m m' name, m ≠ m' ∧ (m, name) ∈ handlers M k decls ∧ (m', name) ∈ handlers M k decls

/-- A name of the declaration is not valid. -/
def Invalid (d : CXXMethodDecl μ) : Prop :=
  match d.attr with
  | .action attrName => validateName (getActionName M attrName d.method) = false
  | .notify code act =>
    ((splitPair (getNotifyPair code act)).1 ≠ "*".toList ∧
        validateName (splitPair (getNotifyPair code act)).1 = false) ∨
      validateName (splitPair (getNotifyPair code act)).2 = false
  | .none => False

/-- The handler's name has been taken before, and the name of its method has not. -/
def Redefines (before : List (CXXMethodDecl μ)) (d : CXXMethodDecl μ) : Prop :=
  ∃ k name, handlerName M k d = some name ∧
    (∃ h ∈ handlers M k before, name ∈ names M h) ∧
    ∀ h ∈ handlers M k before, M.nameAsString d.method ∉ names M h

def State.registry (st : State μ) : Kind → Registry μ
  | .action => st.actions
  | .notify => st.notifies

/-- What the stubs are for. -/
def Registry.keys (r : Registry μ) : List (μ × Str) := r.stubs.map fun s => (s.method, s.str)

variable {M} {hasUosiolib : Bool} {st : State μ} {d : CXXMethodDecl μ} {k : Kind}
  {decls : List (CXXMethodDecl μ)} {r : Registry μ} {name : Str} {m : μ}

/-! ## One visit -/

section

variable {mismatch elsewhere : String} {create : Str → μ → List (Stub μ)}

/-- The check against the previous declarations never fails. -/
lemma visitHandler_errors : (visitHandler M mismatch elsewhere create r name m).2 ≠ [] ↔
    M.nameAsString m ∉ r.handlers ∧ name ∈ r.handlers := by
  have hfind : ∀ itr, r.declared.find? (· = name) = some itr → itr = name := by
    intro itr h
    have := List.find?_some h
    simpa using this
  unfold visitHandler
  cases hf : r.declared.find? (· = name) with
  | none => by_cases hm : M.nameAsString m ∈ r.handlers <;>
      by_cases hn : name ∈ r.handlers <;> simp [hm, hn]
  | some itr => by_cases hm : M.nameAsString m ∈ r.handlers <;>
      by_cases hn : name ∈ r.handlers <;> simp [hfind itr hf, hm, hn]

lemma visitHandler_stubs : (visitHandler M mismatch elsewhere create r name m).1.stubs =
    if ∀ n ∈ names M (m, name), n ∉ r.handlers then r.stubs ++ create name m else r.stubs := by
  unfold visitHandler names
  by_cases hm : M.nameAsString m ∈ r.handlers <;> by_cases hn : name ∈ r.handlers <;>
    simp [hm, hn]

end

lemma registry_visit_none (h : handlerName M k d = none) :
    (visitCXXMethodDecl M hasUosiolib st d).registry k = st.registry k := by
  obtain ⟨m, attr⟩ := d
  cases k <;> cases attr <;> first | rfl | cases h

/-- The names are taken, whether there is a stub or not. -/
lemma handlers_visit (h : handlerName M k d = some name) :
    ((visitCXXMethodDecl M hasUosiolib st d).registry k).handlers =
      names M (d.method, name) ++ (st.registry k).handlers := by
  obtain ⟨m, attr⟩ := d
  cases k <;> cases attr <;> cases h <;> rfl

/-- A stub is written when the names are free. -/
lemma keys_visit (hc : M.isUosioContract d.method = true) (h : handlerName M k d = some name) :
    ((visitCXXMethodDecl M hasUosiolib st d).registry k).keys =
      if ∀ n ∈ names M (d.method, name), n ∉ (st.registry k).handlers then
        (st.registry k).keys ++ [(d.method, name)]
      else (st.registry k).keys := by
  have hcreate (attr funcName : Str) :
      (createDispatch M hasUosiolib attr funcName name d.method).map
        (fun s => (s.method, s.str)) = [(d.method, name)] := by
    simp [createDispatch, hc]
  have hkeys {mismatch elsewhere : String} {attr funcName : Str} {r : Registry μ} :
      (visitHandler M mismatch elsewhere (createDispatch M hasUosiolib attr funcName) r name
        d.method).1.keys =
      if ∀ n ∈ names M (d.method, name), n ∉ r.handlers then r.keys ++ [(d.method, name)]
      else r.keys := by
    unfold Registry.keys
    rw [visitHandler_stubs]
    split
    · rw [List.map_append, hcreate]
    · rfl
  obtain ⟨m, attr⟩ := d
  cases k <;> cases attr <;> cases h <;> exact hkeys

lemma validate_ne_nil {str : Str} {err : String} :
    validate str err ≠ [] ↔ validateName str = false := by
  unfold validate
  cases validateName str <;> simp

/-- A declaration is a handler of one kind at most. -/
lemma exists_handlerName_iff {k₀ : Kind} {name₀ : Str} {q : Kind → Str → Prop}
    (h : ∀ k, handlerName M k d = if k = k₀ then some name₀ else none) :
    (∃ k name, handlerName M k d = some name ∧ q k name) ↔ q k₀ name₀ := by
  constructor
  · rintro ⟨k, name, hname, hq⟩
    rw [h] at hname
    split at hname
    · cases hname
      rwa [‹k = k₀›] at hq
    · cases hname
  · intro hq
    exact ⟨k₀, name₀, by rw [h, if_pos rfl], hq⟩

/-- An error is emitted for an invalid name, and when only the handler's name is taken. -/
lemma errors_visit : (visitCXXMethodDecl M hasUosiolib st d).errors ≠ [] ↔
    st.errors ≠ [] ∨ Invalid M d ∨ ∃ k name, handlerName M k d = some name ∧
      M.nameAsString d.method ∉ (st.registry k).handlers ∧ name ∈ (st.registry k).handlers := by
  have happ {a b : List String} : a ++ b ≠ [] ↔ a ≠ [] ∨ b ≠ [] := by
    rw [ne_eq, List.append_eq_nil_iff, not_and_or]
  obtain ⟨m, attr⟩ := d
  cases attr with
  | action attrName =>
    have hkind : ∀ k, handlerName M k ⟨m, .action attrName⟩ =
        if k = .action then some (getActionName M attrName m) else none := by
      intro k
      cases k <;> rfl
    show st.errors ++ validate _ _ ++ (visitHandler _ _ _ _ _ _ _).2 ≠ [] ↔ _
    rw [exists_handlerName_iff hkind, happ, happ, visitHandler_errors, validate_ne_nil, or_assoc]
    rfl
  | notify code act =>
    have hkind : ∀ k, handlerName M k ⟨m, .notify code act⟩ =
        if k = .notify then some (getNotifyPair code act) else none := by
      intro k
      cases k <;> rfl
    -- the name of the contract is not checked when it is the wildcard
    have hfirst : (if (splitPair (getNotifyPair code act)).1 ≠ "*".toList then
          validate (splitPair (getNotifyPair code act)).1 "invalid contract name" else []) ≠ [] ↔
        (splitPair (getNotifyPair code act)).1 ≠ "*".toList ∧
          validateName (splitPair (getNotifyPair code act)).1 = false := by
      split
      · exact validate_ne_nil.trans (and_iff_right ‹_›).symm
      · exact iff_of_false (fun h => h rfl) fun h => absurd h.1 ‹_›
    show st.errors ++ (if (splitPair (getNotifyPair code act)).1 ≠ "*".toList then
      validate (splitPair (getNotifyPair code act)).1 "invalid contract name" else []) ++
        validate _ _ ++ (visitHandler _ _ _ _ _ _ _).2 ≠ [] ↔ _
    rw [exists_handlerName_iff hkind, happ, happ, happ, visitHandler_errors, validate_ne_nil, hfirst]
    simp only [or_assoc]
    exact Iff.rfl.or or_assoc.symm
  | none =>
    constructor
    · exact .inl
    · rintro (h | h | ⟨k, name, h, -⟩)
      · exact h
      · exact h.elim
      · cases k <;> cases h

/-! ## A translation unit -/

lemma visitAll_concat : visitAll M hasUosiolib (decls ++ [d]) =
    visitCXXMethodDecl M hasUosiolib (visitAll M hasUosiolib decls) d := by
  unfold visitAll
  rw [List.foldl_append]
  rfl

lemma handlers_concat : handlers M k (decls ++ [d]) =
    handlers M k decls ++ (handlerName M k d).toList.map fun name => (d.method, name) := by
  unfold handlers
  rw [List.filterMap_append]
  cases h : handlerName M k d <;> simp [h]

/-- The names that have been taken are those of the handlers. -/
lemma mem_handlers_visitAll {n : Str} :
    n ∈ ((visitAll M hasUosiolib decls).registry k).handlers ↔
      ∃ h ∈ handlers M k decls, n ∈ names M h := by
  induction decls using List.reverseRecOn with
  | nil => cases k <;> simp [visitAll, State.init, State.registry, handlers]
  | append_singleton decls d ih =>
    rw [visitAll_concat, handlers_concat]
    cases h : handlerName M k d with
    | none =>
      rw [registry_visit_none h, ih]
      simp
    | some name =>
      rw [handlers_visit h, List.mem_append, ih]
      simp only [Option.toList_some, List.map_cons, List.map_nil, List.mem_append,
        List.mem_singleton, or_and_right, exists_or, exists_eq_left]
      exact or_comm

/-- The stubs are for the handlers that find both their names free. -/
lemma keys_foldl (hc : ∀ d ∈ decls, M.isUosioContract d.method = true) :
    ((decls.foldl (visitCXXMethodDecl M hasUosiolib) st).registry k).keys =
      (st.registry k).keys ++ accepted (names M) (st.registry k).handlers (handlers M k decls) := by
  induction decls generalizing st with
  | nil => exact (List.append_nil _).symm
  | cons d decls ih =>
    -- the names that are taken so far are what `accepted` is told
    rw [List.foldl_cons, ih fun e he => hc e (List.mem_cons_of_mem d he)]
    cases h : handlerName M k d with
    | none =>
      have hcons : handlers M k (d :: decls) = handlers M k decls := by
        simp [handlers, h]
      rw [registry_visit_none h, hcons]
    | some name =>
      have hcons : handlers M k (d :: decls) = (d.method, name) :: handlers M k decls := by
        simp [handlers, h]
      rw [handlers_visit h, keys_visit (hc d List.mem_cons_self) h, hcons]
      by_cases hfree : ∀ n ∈ names M (d.method, name), n ∉ (st.registry k).handlers
      · rw [if_pos hfree, accepted_cons_of_free hfree, List.append_assoc]
        rfl
      · rw [if_neg hfree, accepted_cons_of_taken hfree]

/-- An error is emitted for the invalid names and the redefinitions. -/
lemma errors_visitAll : (visitAll M hasUosiolib decls).errors ≠ [] ↔
    (∃ d ∈ decls, Invalid M d) ∨ ∃ before d, before ++ [d] <+: decls ∧ Redefines M before d := by
  induction decls using List.reverseRecOn with
  | nil => simp [visitAll, State.init]
  | append_singleton decls d ih =>
    have hredef : (∃ k name, handlerName M k d = some name ∧
        M.nameAsString d.method ∉ ((visitAll M hasUosiolib decls).registry k).handlers ∧
        name ∈ ((visitAll M hasUosiolib decls).registry k).handlers) ↔ Redefines M decls d := by
      unfold Redefines
      simp only [mem_handlers_visitAll]
      push Not
      simp only [and_comm]
    have hprefix : (∃ before e, before ++ [e] <+: decls ++ [d] ∧ Redefines M before e) ↔
        (∃ before e, before ++ [e] <+: decls ∧ Redefines M before e) ∨ Redefines M decls d := by
      constructor
      · rintro ⟨before, e, hpre, hre⟩
        rcases List.prefix_concat_iff.mp hpre with heq | hpre
        · obtain ⟨rfl, rfl⟩ : before = decls ∧ e = d := by simpa using heq
          exact .inr hre
        · exact .inl ⟨before, e, hpre, hre⟩
      · rintro (⟨before, e, hpre, hre⟩ | hre)
        · exact ⟨before, e, hpre.trans (List.prefix_append _ _), hre⟩
        · exact ⟨decls, d, List.prefix_rfl, hre⟩
    rw [visitAll_concat, errors_visit, ih, hredef, hprefix]
    simp only [List.mem_append, List.mem_singleton, or_and_right, exists_or, exists_eq_left]
    exact or_or_or_comm

variable [DecidableEq μ]

/-- A contract `token` with the methods `xfer` and `transfer`. -/
def tokenMethods : Methods (Fin 2) where
  nameAsString m := if m = 0 then "xfer".toList else "transfer".toList
  parentName _ := "token".toList
  parentQualifiedName _ := "token".toList
  parameters _ := []
  isUosioContract _ := true

/-- `xfer` handles the action `onxfer` and `transfer` the notifications of `uosio.token`. -/
def tokenDecls : List (CXXMethodDecl (Fin 2)) :=
  [⟨0, .action "onxfer".toList⟩, ⟨1, .notify "uosio.token".toList "transfer".toList⟩]

/-- `xfer` handles the action `transfer` and the method `transfer` the action `send`. -/
def shadowingDecls : List (CXXMethodDecl (Fin 2)) :=
  [⟨0, .action "transfer".toList⟩, ⟨1, .action "send".toList⟩]

end UosioCdt.Tools.Codegen
