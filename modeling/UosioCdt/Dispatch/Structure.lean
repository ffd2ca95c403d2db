import UosioCdt.Dispatch.Decode
import UosioCdt.Dispatch.WriterTheorems

/-!
# When the dispatcher is a function body

The chains of `create_if` open one IF an entry, each in the ELSE of the one before
(`scan_chainInstrs`); the action dispatcher closes what it opens (`scan_actionInstrs`), but the
notify dispatcher leaves open the IF of every code other than `*`, and closes one IF more when
there is a `post_dispatch`. Which contracts get a valid body follows by counting
(`isBody_bodyInstrs_iff`).
-/

namespace UosioCdt.Dispatch

open StructuredCode Tools

/-! ## The scan of the parts -/

/-- The frames inside a chain of `n` IFs, each in the ELSE of the one before. -/
def chained : ℕ → List Bool → List Bool
  | 0, fs => fs
  | n + 1, fs => false :: (List.replicate n true ++ fs)

lemma length_chained (n : ℕ) (fs : List Bool) : (chained n fs).length = n + fs.length := by
  cases n <;> simp [chained]; omega

lemma replicate_append_cons {α : Type} (n : ℕ) (a : α) (l : List α) :
    List.replicate n a ++ a :: l = List.replicate (n + 1) a ++ l := by
  rw [List.replicate_succ', List.append_assoc]
  rfl

/-- `n` ENDs close a chain of `n` IFs. -/
lemma scan_chained_ends (n : ℕ) (fs : List Bool) (ts : List Instr) :
    scan (.inside (chained n fs)) (List.replicate n .end_ ++ ts) = scan (.inside fs) ts := by
  cases n with
  | zero => rfl
  | succ n =>
    have h := scan_replicate_end (α := Plain) (false :: List.replicate n true) fs
    simp only [List.length_cons, List.length_replicate] at h
    rw [scan_append, chained, ← List.cons_append, h]
    rfl

/-- The ELSE behind a chain. -/
lemma scan_chained_else (n : ℕ) (fs : List Bool) (ts : List Instr) :
    scan (.inside (chained (n + 1) fs)) (.else_ :: ts)
      = scan (.inside (List.replicate (n + 1) true ++ fs)) ts := rfl

/-- A chain of `create_if` that goes on in the ELSE of an open IF. -/
lemma scan_chainInstrs_true (L : Linker) (strs : List Str) (fs : List Bool) (ts : List Instr) :
    scan (.inside (false :: fs)) (chainInstrs L strs true ++ ts)
      = scan (.inside (false :: (List.replicate strs.length true ++ fs))) ts := by
  induction strs generalizing fs with
  | nil => rfl
  | cons str strs ih =>
    simp only [chainInstrs, ifInstrs, if_true, List.cons_append, List.nil_append, scan_else,
      scan_op, scan_if, ih, replicate_append_cons, List.length_cons]

/-- A chain of `create_if` from its start. -/
lemma scan_chainInstrs (L : Linker) (strs : List Str) (fs : List Bool) (ts : List Instr) :
    scan (.inside fs) (chainInstrs L strs false ++ ts)
      = scan (.inside (chained strs.length fs)) ts := by
  cases strs with
  | nil => rfl
  | cons str strs =>
    simp only [chainInstrs, ifInstrs, Bool.false_eq_true, if_false, List.cons_append,
      List.nil_append, scan_op, scan_if, scan_chainInstrs_true, chained, List.length_cons]

/-- The action dispatcher closes every IF it opens. -/
lemma scan_actionInstrs (L : Linker) (fs : List Bool) (ts : List Instr) :
    scan (.inside fs) (actionInstrs L ++ ts) = scan (.inside fs) ts := by
  have hassert (ds : List Bool) (us : List Instr) :
      scan (.inside ds) ([.op (.getLocal 0), .op (.i64Const (stringToName uosioName)),
        .op .i64Ne, .if_, .op .i32Zero, .op (.i64Const UOSIO_ERROR_NO_ACTION),
        .op (.call L.assertIdx)] ++ actionPost L ++ [.end_] ++ us) = scan (.inside ds) us := by
    cases hpost : L.find postDispatch <;> simp [actionPost, hpost, callPost]
  simp only [actionInstrs, List.append_assoc, scan_chainInstrs] at hassert ⊢
  cases hacts : L.actions with
  | nil => simpa [chained] using hassert fs ts
  | cons a as =>
    have hpos : (a :: as).length > 0 := Nat.succ_pos _
    rw [if_pos hpos, List.length_cons, List.singleton_append, scan_chained_else, hassert,
      ← scan_chained_ends (as.length + 1) fs ts]
    -- the ENDs do not look at the flags
    have hends (ds : List Bool) (hds : ds.length = as.length + 1) :
        scan (.inside (ds ++ fs)) (List.replicate (as.length + 1) .end_ ++ ts)
          = scan (.inside fs) ts := by
      rw [scan_append, ← hds, scan_replicate_end]
      rfl
    rw [hends _ (List.length_replicate ..), scan_chained_ends]

/-- The codes of the notify dispatcher: each leaves its IF open. -/
lemma scan_codesInstrs_true (L : Linker) (m : NotifyHandlers) (fs : List Bool) (ts : List Instr) :
    scan (.inside (false :: fs)) (codesInstrs L m true ++ ts)
      = scan (.inside (false :: (List.replicate m.length true ++ fs))) ts := by
  induction m generalizing fs with
  | nil => rfl
  | cons notif0 m ih =>
    simp only [codesInstrs, if_true, List.cons_append, List.nil_append, List.append_assoc,
      scan_else, scan_op, scan_if, scan_chainInstrs, scan_chained_ends, ih,
      replicate_append_cons, List.length_cons]

lemma scan_codesInstrs (L : Linker) (m : NotifyHandlers) (fs : List Bool) (ts : List Instr) :
    scan (.inside fs) (codesInstrs L m false ++ ts) = scan (.inside (chained m.length fs)) ts := by
  cases m with
  | nil => rfl
  | cons notif0 m =>
    simp only [codesInstrs, Bool.false_eq_true, if_false, List.cons_append, List.nil_append,
      List.append_assoc, scan_op, scan_if, scan_chainInstrs, scan_chained_ends,
      scan_codesInstrs_true]
    rfl

/-- The codes and the ELSE behind the last one. -/
lemma scan_codes_else (L : Linker) (m : NotifyHandlers) (fs : List Bool) (ts : List Instr) :
    scan (.inside fs)
        (codesInstrs L m false ++ ((if m.isEmpty then [] else [.else_]) ++ ts))
      = scan (.inside (List.replicate m.length true ++ fs)) ts := by
  rw [scan_codesInstrs]
  cases m <;> rfl

/-! ## The whole body -/

/-- What follows the wildcard handlers, without the last END. -/
def closingInstrs (L : Linker) : List Instr :=
  List.replicate L.wildcards.length .end_ ++ .end_ :: (callDtors L ++ preEnd L)

lemma isClosing_closingInstrs (L : Linker) : ∀ t ∈ closingInstrs L, t.isClosing = true := by
  have hd : ∀ t ∈ callDtors L, t.isClosing = true := by
    unfold callDtors
    split
    · split <;> simp [Tok.isClosing]
    · simp
  have hp : ∀ t ∈ preEnd L, t.isClosing = true := by
    unfold preEnd
    split <;> simp [Tok.isClosing]
  intro t ht
  simp only [closingInstrs, List.mem_append, List.mem_replicate, List.mem_cons] at ht
  rcases ht with ⟨-, rfl⟩ | rfl | ht | ht
  · rfl
  · rfl
  · exact hd t ht
  · exact hp t ht

/-- The IF of `pre_dispatch` is closed once. -/
def preFrames (L : Linker) : List Bool :=
  if (L.find preDispatch).isSome then [false] else []

lemma countEnds_closingInstrs (L : Linker) :
    (closingInstrs L).countP Tok.isEnd = L.wildcards.length + 1 + (preFrames L).length := by
  have hd : (callDtors L).countP Tok.isEnd = 0 := by
    unfold callDtors
    split
    · split <;> simp [Tok.isEnd]
    · rfl
  have hp : (preEnd L).countP Tok.isEnd = (preFrames L).length := by
    cases h : L.find preDispatch <;> simp [preEnd, preFrames, h, List.countP_cons, Tok.isEnd]
  have hr : (List.replicate L.wildcards.length (.end_ : Instr)).countP Tok.isEnd
      = L.wildcards.length := by
    simp [List.countP_replicate, Tok.isEnd]
  simp only [closingInstrs, List.countP_append, List.countP_cons, hd, hp, hr, Tok.isEnd, if_true]
  omega

/-- Up to the wildcard handlers the body opens the IF of `pre_dispatch`, the one on
`code == receiver` in its ELSE, one for every code, and the chain of the wildcards. -/
lemma scan_bodyInstrs (L : Linker) :
    scan (.inside []) (bodyInstrs L)
      = scan (.inside (chained L.wildcards.length
          (List.replicate (specific L.handlers).length true ++ true :: preFrames L)))
        (notifyPost L ++ (closingInstrs L ++ [.end_])) := by
  have hctors (fs : List Bool) (ts : List Instr) :
      scan (.inside fs) (callCtors L ++ ts) = scan (.inside fs) ts := by
    unfold callCtors
    split
    · split <;> simp
    · rfl
  have hpre (ts : List Instr) :
      scan (.inside []) (preInstrs L ++ ts) = scan (.inside (preFrames L)) ts := by
    cases h : L.find preDispatch <;> simp [preInstrs, preFrames, h]
  have honerror (fs : List Bool) (ts : List Instr) :
      scan (.inside fs) ((if hasOnerrorHandler L.handlers then [] else assertOnerror L.assertIdx)
        ++ ts) = scan (.inside fs) ts := by
    split <;> simp [assertOnerror]
  simp only [bodyInstrs, notifyInstrs, closingInstrs, List.append_assoc, List.cons_append,
    List.nil_append, hctors, hpre, scan_op, scan_if, scan_actionInstrs, scan_else, honerror,
    scan_codes_else, scan_chainInstrs]

/-- The dispatcher without `post_dispatch` is a body exactly when there is no code but `*`. -/
lemma isBody_bodyInstrs_of_no_post {L : Linker} (h : L.find postDispatch = none) :
    IsBody (bodyInstrs L) ↔ specific L.handlers = [] := by
  have hpost : notifyPost L = [] := by rw [notifyPost, h]
  rw [IsBody, scan_bodyInstrs, hpost, List.nil_append,
    scan_closing_iff (isClosing_closingInstrs L), countEnds_closingInstrs, length_chained,
    List.length_append, List.length_replicate, List.length_cons, ← List.length_eq_zero_iff]
  omega

/-- The dispatcher with `post_dispatch` is a body exactly when there is one code but `*`, and a
wildcard handler. -/
lemma isBody_bodyInstrs_of_post {L : Linker} {postIdx : UInt32}
    (h : L.find postDispatch = some postIdx) :
    IsBody (bodyInstrs L) ↔ (specific L.handlers).length = 1 ∧ L.wildcards ≠ [] := by
  have hpost : notifyPost L = .else_ :: (callPost postIdx ++ [.end_]) := by rw [notifyPost, h]
  rw [IsBody, scan_bodyInstrs, hpost]
  cases hw : L.wildcards with
  | nil =>
    -- the ELSE of `post_dispatch` finds an IF that has had one
    have htop : List.replicate (specific L.handlers).length true ++ true :: preFrames L
        = true :: (List.replicate (specific L.handlers).length true ++ preFrames L) := by
      rw [replicate_append_cons]
      rfl
    simp [chained, htop, scan, Scan.step]
  | cons w ws =>
    rw [List.length_cons, List.cons_append, scan_chained_else]
    simp only [callPost, List.cons_append, List.nil_append, scan_op, List.replicate_succ, scan_end]
    rw [scan_closing_iff (isClosing_closingInstrs L), countEnds_closingInstrs, hw]
    simp only [List.length_append, List.length_replicate, List.length_cons, ne_eq,
      reduceCtorEq, not_false_eq_true, and_true]
    omega

/-! ## In terms of the entries -/

/-- The codes other than `*` that some notify entry names, each once. -/
def Linker.specificCodes (L : Linker) : List Str :=
  ((L.objectFiles.flatMap (·.uosioNotify)).map beforeColon).dedup.filter (· ≠ ['*'])

/-- Some notify entry has the code `*`. -/
def Linker.HasWildcard (L : Linker) : Prop :=
  ∃ f ∈ L.objectFiles, ∃ e ∈ f.uosioNotify, beforeColon e = ['*']

lemma mem_specificCodes {L : Linker} {code : Str} :
    code ∈ L.specificCodes ↔ code ∈ MultiMap.keys (specific L.handlers) := by
  have hkeys : code ∈ MultiMap.keys (specific L.handlers)
      ↔ code ∈ MultiMap.keys L.handlers ∧ code ≠ ['*'] := by
    simp only [MultiMap.keys, specific, List.mem_map, List.mem_filter, decide_eq_true_eq]
    constructor
    · rintro ⟨p, ⟨hp, hne⟩, rfl⟩
      exact ⟨⟨p, hp, rfl⟩, hne⟩
    · rintro ⟨⟨p, hp, rfl⟩, hne⟩
      exact ⟨p, ⟨hp, hne⟩, rfl⟩
  have hcodes : code ∈ MultiMap.keys L.handlers ↔ ∃ e ∈ L.notifies, beforeColon e = code := by
    rw [Linker.handlers, MultiMap.mem_keys_pushAll]
    simp [MultiMap.keys]
  rw [hkeys, hcodes, Linker.specificCodes, List.mem_filter, List.mem_dedup, List.mem_map,
    decide_eq_true_eq]
  simp [mem_notifies]

lemma Linker.nodup_keys_specific (L : Linker) :
    (MultiMap.keys (specific L.handlers)).Nodup := by
  have hsub : (MultiMap.keys (specific L.handlers)).Sublist (MultiMap.keys L.handlers) :=
    List.filter_sublist.map _
  exact hsub.nodup (L.sorted_handlers.imp ne_of_lt)

/-- `notify_handlers` has one entry for every specific code. -/
lemma Linker.length_specific (L : Linker) :
    (specific L.handlers).length = L.specificCodes.length := by
  have hnodup : L.specificCodes.Nodup := (List.nodup_dedup _).filter _
  have hperm : L.specificCodes.Perm (MultiMap.keys (specific L.handlers)) :=
    (List.perm_ext_iff_of_nodup hnodup L.nodup_keys_specific).mpr fun _ => mem_specificCodes
  rw [hperm.length_eq, MultiMap.keys, List.length_map]

lemma Linker.wildcards_ne_nil_iff (L : Linker) : L.wildcards ≠ [] ↔ L.HasWildcard := by
  rw [Linker.wildcards, L.get_handlers, ne_eq, List.map_eq_nil_iff, List.filter_eq_nil_iff]
  simp only [decide_eq_true_eq, not_forall, not_not, exists_prop, Linker.HasWildcard, mem_notifies]
  constructor
  · rintro ⟨e, ⟨f, hf, he⟩, hcode⟩
    exact ⟨f, hf, e, he, hcode⟩
  · rintro ⟨f, hf, e, he, hcode⟩
    exact ⟨e, ⟨f, hf, he⟩, hcode⟩

/-- The contracts whose dispatcher closes as many IFs as it opens: no `post_dispatch` and no code
but `*`, or a `post_dispatch`, one code but `*` and a wildcard handler. -/
def Linker.Balanced (L : Linker) : Prop :=
  (L.find postDispatch = none ∧ L.specificCodes = []) ∨
    ((L.find postDispatch).isSome ∧ L.specificCodes.length = 1 ∧ L.HasWildcard)

theorem isBody_bodyInstrs_iff (L : Linker) : IsBody (bodyInstrs L) ↔ L.Balanced := by
  cases hpost : L.find postDispatch with
  | none =>
    rw [isBody_bodyInstrs_of_no_post hpost, Linker.Balanced, hpost, ← List.length_eq_zero_iff,
      L.length_specific, List.length_eq_zero_iff]
    simp
  | some postIdx =>
    rw [isBody_bodyInstrs_of_post hpost, Linker.Balanced, hpost, L.length_specific,
      L.wildcards_ne_nil_iff]
    simp

/-- The linker writes a structurally valid body exactly for the balanced contracts. -/
theorem bodyContent_valid_iff (L : Linker) (h : Linkable L) :
    ∃ content, bodyContent L = .ok content ∧ (ValidBody content ↔ L.Balanced) := by
  refine ⟨Leb128.encodeU 0 ++ (bodyInstrs L).flatMap encodeInstr, ?_, ?_⟩
  · rw [bodyContent, h.dispatchInstrs_eq, ok_bind]
    rfl
  · rw [validBody_encode_iff, isBody_bodyInstrs_iff]

/-! ## A contract with one notify handler -/

/-- The symbols of a contract with the notify handler `on_transfer`. -/
def transferSymbols : List (Str × UInt32) :=
  [(uosioAssertCode, 0), ("on_transfer".toList, 1)]

/-- A contract that listens to the transfers of `uosio.token`. -/
def transferContract : Linker where
  objectFiles := [
    { uosioActions := [], uosioNotify := ["uosio.token::transfer:on_transfer".toList] }]
  find name := transferSymbols.lookup name
  symbolCount := 2

lemma linkable_transferContract : Linkable transferContract where
  assertFound := ⟨0, by decide, by decide⟩
  actions := by simp [transferContract]
  notifies := by
    intro f hf e he
    obtain rfl : f = transferContract.objectFiles.head (by decide) := by
      simpa [transferContract] using hf
    obtain rfl : e = "uosio.token::transfer:on_transfer".toList := by
      simpa [transferContract] using he
    exact ⟨"uosio.token".toList, "transfer".toList, "on_transfer".toList, by decide, by decide,
      by decide, by decide⟩

/-- The dispatcher of the transfer listener leaves an IF open. -/
theorem exists_invalid_body :
    ¬ ∀ L, Linkable L → ∃ content, bodyContent L = .ok content ∧ ValidBody content := by
  intro h
  obtain ⟨content, hcontent, hvalid⟩ := h transferContract linkable_transferContract
  rw [bodyContent, linkable_transferContract.dispatchInstrs_eq, ok_bind] at hcontent
  obtain rfl := Except.ok.inj hcontent
  rw [validBody_encode_iff] at hvalid
  exact absurd hvalid (by decide)

theorem bodyContent_valid_iff_transferContract :
    ∃ content, bodyContent transferContract = .ok content ∧
      (ValidBody content ↔ transferContract.Balanced) :=
  bodyContent_valid_iff transferContract linkable_transferContract

end UosioCdt.Dispatch
