import UosioCdt.Tools.AbiMerge
import Mathlib.Data.List.Nodup

/-!
# What merging ABIs keeps

A merge keeps every definition of both ABIs, and the result does not depend on the order of the
object files, as long as definitions of one name agree in what the tests do not look at.
-/

namespace UosioCdt.Tools

open KeyedMerge

/-! ## What a merge does -/

section addObject

variable {α : Type} {id : α → String} {isSame : α → α → Bool} {a b ret : List α} {objB : α}

lemma shouldSkip_eq {skip : Bool} (h : ∀ x ∈ a, id x = id objB → isSame x objB) :
    shouldSkip id isSame objB skip a = .ok (skip || a.any fun x => id x = id objB) := by
  induction a generalizing skip with
  | nil => simp [shouldSkip]
  | cons x a ih =>
    have hx := h x List.mem_cons_self
    have ha := fun y hy => h y (List.mem_cons_of_mem x hy)
    rw [shouldSkip]
    by_cases hid : id x = id objB
    · rw [if_pos hid, if_neg (not_not.mpr (hx hid)), ih ha]
      simp [hid]
    · rw [if_neg hid, ih ha]
      simp [hid]

lemma shouldSkip_error {skip : Bool} (h : ¬ ∀ x ∈ a, id x = id objB → isSame x objB) :
    ∃ msg, shouldSkip id isSame objB skip a = .error msg := by
  induction a generalizing skip with
  | nil => exact absurd (fun x hx => absurd hx List.not_mem_nil) h
  | cons x a ih =>
    rw [shouldSkip]
    rw [List.forall_mem_cons] at h
    by_cases hid : id x = id objB
    · by_cases hsame : isSame x objB
      · rw [if_pos hid, if_neg (not_not.mpr hsame)]
        exact ih fun ha => h ⟨fun _ => hsame, ha⟩
      · rw [if_pos hid, if_pos hsame]
        exact ⟨_, rfl⟩
    · rw [if_neg hid]
      exact ih fun ha => h ⟨fun hx => absurd hx hid, ha⟩

lemma addLoop_ok_iff {r : List α} : addLoop id isSame a ret b = .ok r ↔
    Accepts id (fun x y => isSame x y) a b ∧ r = ret ++ missing id a b := by
  induction b generalizing ret with
  | nil =>
    have hnil : missing id a [] = [] := rfl
    have hacc : Accepts id (fun x y => isSame x y) a [] := fun _ _ y hy =>
      absurd hy List.not_mem_nil
    rw [addLoop, hnil, List.append_nil, and_iff_right hacc, Except.ok.injEq, eq_comm]
  | cons objB b ih =>
    have hsplit : Accepts id (fun x y => isSame x y) a (objB :: b) ↔
        (∀ x ∈ a, id x = id objB → isSame x objB) ∧ Accepts id (fun x y => isSame x y) a b := by
      unfold Accepts
      simp only [List.forall_mem_cons, forall_and]
    rw [addLoop, hsplit]
    by_cases h : ∀ x ∈ a, id x = id objB → isSame x objB
    · have hskip : (a.any fun x => id x = id objB) = ! decide (∀ x ∈ a, id x ≠ id objB) := by
        rw [Bool.eq_iff_iff]
        simp
      rw [shouldSkip_eq h, Bool.false_or, hskip]
      show addLoop id isSame a _ b = _ ↔ _
      rw [ih, and_iff_right h]
      refine and_congr_right fun _ => ?_
      unfold missing
      rw [List.filter_cons]
      by_cases hmiss : ∀ x ∈ a, id x ≠ id objB
      · simp only [decide_eq_true hmiss, Bool.not_true, Bool.false_eq_true, if_false, if_true,
          List.append_assoc, List.singleton_append]
      · simp only [decide_eq_false hmiss, Bool.not_false, Bool.false_eq_true, if_false, if_true]
    · obtain ⟨msg, herr⟩ : ∃ msg, shouldSkip id isSame objB false a = .error msg :=
        shouldSkip_error h
      rw [herr]
      constructor
      · intro hr
        change Except.error msg = .ok r at hr
        cases hr
      · exact fun hr => absurd hr.1.1 h

/-- `add_object` appends what is missing, unless a definition is not the same. -/
theorem addObject_ok_iff {r : List α} : addObject id isSame a b = .ok r ↔
    Accepts id (fun x y => isSame x y) a b ∧ r = join id a b := addLoop_ok_iff

end addObject

lemma bind_ok_iff {ε α β : Type} {x : Except ε α} {f : α → Except ε β} {b : β} :
    (x >>= f) = .ok b ↔ ∃ a, x = .ok a ∧ f a = .ok b := by
  constructor
  · intro h
    cases x with
    | error e => cases h
    | ok a => exact ⟨a, rfl, h⟩
  · rintro ⟨a, rfl, h⟩
    exact h

/-- A merge succeeds when every section merges, and joins every section. -/
theorem Abi.merge_ok_iff {a b r : Abi} : a.merge b = .ok r ↔
    (∀ sec ∈ Section.all, sec.Mergeable a b) ∧ r.version = a.mergeVersion b ∧
      ∀ sec ∈ Section.all, sec.objs r = join sec.ident (sec.objs a) (sec.objs b) := by
  unfold Abi.merge mergeTypes mergeStructs mergeActions mergeTables mergeClauses mergeVariants
  simp only [bind_ok_iff, addObject_ok_iff, Section.all, List.forall_mem_cons, Section.Mergeable]
  constructor
  · rintro ⟨_, ⟨h₁, rfl⟩, _, ⟨h₂, rfl⟩, _, ⟨h₃, rfl⟩, _, ⟨h₄, rfl⟩, _, ⟨h₅, rfl⟩, _, ⟨h₆, rfl⟩, hr⟩
    obtain rfl := Except.ok.inj hr
    exact ⟨⟨h₁, h₂, h₃, h₄, h₅, h₆, fun _ h => absurd h List.not_mem_nil⟩, rfl, rfl, rfl, rfl, rfl,
      rfl, rfl, fun _ h => absurd h List.not_mem_nil⟩
  · rintro ⟨⟨h₁, h₂, h₃, h₄, h₅, h₆, -⟩, hversion, e₁, e₂, e₃, e₄, e₅, e₆, -⟩
    obtain ⟨version, types, structs, actions, tables, clauses, variants⟩ := r
    obtain rfl : version = a.mergeVersion b := hversion
    obtain rfl := e₁
    obtain rfl := e₂
    obtain rfl := e₃
    obtain rfl := e₄
    obtain rfl := e₅
    obtain rfl := e₆
    exact ⟨_, ⟨h₁, rfl⟩, _, ⟨h₂, rfl⟩, _, ⟨h₃, rfl⟩, _, ⟨h₄, rfl⟩, _, ⟨h₅, rfl⟩, _, ⟨h₆, rfl⟩, rfl⟩

/-! ## What the tests accept -/

lemma typeIsSame_iff {a b : AbiTypedef} : typeIsSame a b = true ↔ a = b := by
  obtain ⟨n, t⟩ := a
  obtain ⟨n', t'⟩ := b
  simp [typeIsSame]

lemma actionIsSame_iff {a b : AbiAction} : actionIsSame a b = true ↔ a = b := by
  obtain ⟨n, t, c⟩ := a
  obtain ⟨n', t', c'⟩ := b
  simp [actionIsSame, and_assoc]

lemma tableIsSame_iff {a b : AbiTable} : tableIsSame a b = true ↔ a = b := by
  obtain ⟨n, t, i, k, k'⟩ := a
  obtain ⟨n₂, t₂, i₂, k₂, k₂'⟩ := b
  simp [tableIsSame, and_assoc]

lemma clauseIsSame_iff {a b : AbiRicardianClausePair} : clauseIsSame a b = true ↔ a = b := by
  obtain ⟨i, body⟩ := a
  obtain ⟨i', body'⟩ := b
  simp [clauseIsSame]

/-- Structs that are the same have one name and one base; their fields need not be in one order. -/
lemma eq_of_structIsSame {a b : AbiStruct} (h : structIsSame a b = true)
    (hfields : a.fields = b.fields) : a = b := by
  obtain ⟨n, base, fs⟩ := a
  obtain ⟨n', base', fs'⟩ := b
  simp only [structIsSame, Bool.and_eq_true, beq_iff_eq] at h
  simp only at hfields
  rw [h.2.1.1, h.2.1.2, hfields]

lemma eq_of_variantIsSame {a b : AbiVariant} (h : variantIsSame a b = true)
    (htypes : a.types = b.types) : a = b := by
  obtain ⟨n, ts⟩ := a
  obtain ⟨n', ts'⟩ := b
  simp only [variantIsSame, Bool.and_eq_true, beq_iff_eq] at h
  simp only at htypes
  rw [h.2, htypes]

/-! ## Soundness -/

/-- Every definition of the two ABIs is in the third. -/
def Sound (a b r : Abi) : Prop :=
  ∀ sec ∈ Section.all, ∀ o, o ∈ sec.objs a ∨ o ∈ sec.objs b → o ∈ sec.objs r

/-- Structs of one name have their fields in one order, and variants of one name have the same
alternatives in one order. -/
structure SameOrder (a b : Abi) : Prop where
  fields : ∀ s ∈ a.structs, ∀ t ∈ b.structs, s.name = t.name → s.fields = t.fields
  alternatives : ∀ v ∈ a.variants, ∀ w ∈ b.variants, v.name = w.name → v.types = w.types

/-- A section keeps all definitions when those of one name are equal. -/
lemma sound_section_iff {α : Type} {id : α → String} {a b : List α} (hunique : (a.map id).Nodup) :
    (∀ o, o ∈ a ∨ o ∈ b → o ∈ join id a b) ↔ ∀ x ∈ a, ∀ y ∈ b, id x = id y → x = y := by
  constructor
  · intro h x hx y hy hxy
    rcases mem_join.mp (h y (.inr hy)) with hya | ⟨-, hmiss⟩
    · exact List.inj_on_of_nodup_map hunique hx hya hxy
    · exact absurd hxy (hmiss x hx)
  · rintro h o (ho | ho)
    · exact mem_join.mpr (.inl ho)
    · by_cases hkey : ∃ x ∈ a, id x = id o
      · obtain ⟨x, hx, hxo⟩ := hkey
        rw [← h x hx o ho hxo]
        exact mem_join.mpr (.inl hx)
      · push Not at hkey
        exact mem_join.mpr (.inr ⟨ho, hkey⟩)

lemma Abi.WellFormed.unique {a : Abi} (h : a.WellFormed) {sec : Section} (hsec : sec ∈ Section.all) :
    ((sec.objs a).map sec.ident).Nodup := by
  simp only [Section.all, List.mem_cons, List.not_mem_nil, or_false] at hsec
  rcases hsec with rfl | rfl | rfl | rfl | rfl | rfl
  · exact h.types
  · exact h.structs
  · exact h.actions
  · exact h.tables
  · exact h.ricardianClauses
  · exact h.variants

/-- A merge that is not refused keeps all definitions exactly when no two definitions of one name
differ in an order that the tests do not look at. -/
theorem merge_sound_iff {a b r : Abi} (ha : a.WellFormed) (h : a.merge b = .ok r) :
    Sound a b r ↔ SameOrder a b := by
  obtain ⟨hmerge, -, hjoin⟩ := Abi.merge_ok_iff.mp h
  have hsound : Sound a b r ↔ ∀ sec ∈ Section.all, ∀ x ∈ sec.objs a, ∀ y ∈ sec.objs b,
      sec.ident x = sec.ident y → x = y := by
    refine forall₂_congr fun sec hsec => ?_
    rw [hjoin sec hsec]
    exact sound_section_iff (ha.unique hsec)
  rw [hsound]
  constructor
  · intro hall
    have hstructs := hall .structs (by simp [Section.all])
    have hvariants := hall .variants (by simp [Section.all])
    exact ⟨fun s hs t ht hname => congrArg AbiStruct.fields (hstructs s hs t ht hname),
      fun v hv w hw hname => congrArg AbiVariant.types (hvariants v hv w hw hname)⟩
  · intro hsame sec hsec x hx y hy hid
    have htest := hmerge sec hsec x hx y hy hid
    simp only [Section.all, List.mem_cons, List.not_mem_nil, or_false] at hsec
    rcases hsec with rfl | rfl | rfl | rfl | rfl | rfl
    · exact typeIsSame_iff.mp htest
    · exact eq_of_structIsSame htest (hsame.fields x hx y hy hid)
    · exact actionIsSame_iff.mp htest
    · exact tableIsSame_iff.mp htest
    · exact clauseIsSame_iff.mp htest
    · exact eq_of_variantIsSame htest (hsame.alternatives x hx y hy hid)

/-- An ABI with one struct. -/
def pairAbi (fields : List AbiField) : Abi where
  version := .initial
  types := []
  structs := [⟨"pair", "", fields⟩]
  actions := []
  tables := []
  ricardianClauses := []
  variants := []

lemma pairAbi_wellFormed (fields : List AbiField) : (pairAbi fields).WellFormed :=
  ⟨List.nodup_nil, List.nodup_singleton _, List.nodup_nil, List.nodup_nil, List.nodup_nil,
    List.nodup_nil⟩

/-- The struct and a type. -/
def typedPair : Abi := { pairAbi [⟨"key", "name"⟩] with types := [⟨"owner", "name"⟩] }

/-- The struct and an action. -/
def actionPair : Abi := { pairAbi [⟨"key", "name"⟩] with actions := [⟨"set", "pair", ""⟩] }

/-- The struct is in both, and the type of the one stands beside the action of the other. -/
theorem merge_sound_iff_pair :
    Sound typedPair actionPair { typedPair with actions := actionPair.actions } ↔
      SameOrder typedPair actionPair := by
  have htyped : typedPair.WellFormed :=
    { pairAbi_wellFormed [⟨"key", "name"⟩] with types := List.nodup_singleton _ }
  exact merge_sound_iff htyped (by decide)

/-- The fields in two orders. -/
theorem exists_unsound_merge : ∃ a b r, Abi.WellFormed a ∧ Abi.WellFormed b ∧ a.merge b = .ok r ∧
    ¬ Sound a b r := by
  refine ⟨pairAbi [⟨"key", "name"⟩, ⟨"value", "string"⟩],
    pairAbi [⟨"value", "string"⟩, ⟨"key", "name"⟩],
    pairAbi [⟨"key", "name"⟩, ⟨"value", "string"⟩], pairAbi_wellFormed _, pairAbi_wellFormed _,
    by decide, fun h => ?_⟩
  have hmem := h .structs (by simp [Section.all]) _ (.inr List.mem_cons_self)
  exact absurd hmem (by decide : ¬ (⟨"pair", "", [⟨"value", "string"⟩, ⟨"key", "name"⟩]⟩ : AbiStruct) ∈
    [(⟨"pair", "", [⟨"key", "name"⟩, ⟨"value", "string"⟩]⟩ : AbiStruct)])

/-! ## The order of the object files -/

/-- The ABIs in the order in which `writeABI` takes them. -/
def mergeOrder (abis : List Abi) : List Abi :=
  match abis.getLast? with
  | none => []
  | some last => last :: abis

/-- The definitions of the section are the same in both ABIs. -/
def SameDefinitions (a b : Abi) : Prop := ∀ sec ∈ Section.all, ∀ o, o ∈ sec.objs a ↔ o ∈ sec.objs b

/-- Every order of the ABIs fails to link, or every order gives the same definitions. -/
def OrderIndependent (abis : List Abi) : Prop :=
  ∀ abis', abis'.Perm abis →
    ((∃ msg, writeAbi abis = some (.error msg)) ↔ ∃ msg, writeAbi abis' = some (.error msg)) ∧
    ∀ a a', writeAbi abis = some (.ok a) → writeAbi abis' = some (.ok a') → SameDefinitions a a'

namespace Section

/-- Definitions of one name pass the test against each other, and any two ABIs that define the name
have the same definitions for it. -/
def Agrees (sec : Section) (abis : List Abi) : Prop :=
  Consistent sec.ident (fun x y => sec.isSame x y) (abis.map sec.objs)

/-- The definitions whose name no earlier ABI has pass the test against all that come later. -/
def FirstsPass (sec : Section) (abis : List Abi) : Prop :=
  KeyedMerge.FirstsPass sec.ident (fun x y => sec.isSame x y) [] (abis.map sec.objs)

end Section

lemma Abi.exists_merge {a b : Abi} (h : ∀ sec ∈ Section.all, sec.Mergeable a b) :
    ∃ r, a.merge b = .ok r := by
  refine ⟨⟨a.mergeVersion b, join AbiTypedef.newTypeName a.types b.types,
    join AbiStruct.name a.structs b.structs, join AbiAction.name a.actions b.actions,
    join AbiTable.name a.tables b.tables,
    join AbiRicardianClausePair.id a.ricardianClauses b.ricardianClauses,
    join AbiVariant.name a.variants b.variants⟩, Abi.merge_ok_iff.mpr ⟨h, rfl, ?_⟩⟩
  simp only [Section.all, List.forall_mem_cons]
  exact ⟨rfl, rfl, rfl, rfl, rfl, rfl, fun _ h => absurd h List.not_mem_nil⟩

lemma Abi.objs_mergeAll {a r : Abi} {bs : List Abi} {sec : Section} (hsec : sec ∈ Section.all)
    (h : a.mergeAll bs = .ok r) :
    sec.objs r = joinAll sec.ident (sec.objs a) (bs.map sec.objs) := by
  induction bs generalizing a with
  | nil => rw [Except.ok.inj h]; rfl
  | cons b bs ih =>
    obtain ⟨c, hc, hr⟩ := bind_ok_iff.mp h
    have hjoin := (Abi.merge_ok_iff.mp hc).2.2 sec hsec
    rw [ih hr, hjoin]
    rfl

lemma Abi.mergeAll_ok_iff {a : Abi} {bs : List Abi} : (∃ r, a.mergeAll bs = .ok r) ↔
    ∀ sec ∈ Section.all, AcceptsAll sec.ident (fun x y => sec.isSame x y) (sec.objs a)
      (bs.map sec.objs) := by
  induction bs generalizing a with
  | nil => exact ⟨fun _ _ _ => trivial, fun _ => ⟨a, rfl⟩⟩
  | cons b bs ih =>
    constructor
    · rintro ⟨r, h⟩ sec hsec
      obtain ⟨c, hc, hr⟩ := bind_ok_iff.mp h
      obtain ⟨hmerge, -, hjoin⟩ := Abi.merge_ok_iff.mp hc
      have hrest := ih.mp ⟨r, hr⟩ sec hsec
      rw [hjoin sec hsec] at hrest
      exact ⟨hmerge sec hsec, hrest⟩
    · intro h
      obtain ⟨c, hc⟩ := Abi.exists_merge (a := a) (b := b) fun sec hsec => (h sec hsec).1
      have hjoin := (Abi.merge_ok_iff.mp hc).2.2
      obtain ⟨r, hr⟩ := ih.mpr fun sec hsec => by
        rw [hjoin sec hsec]
        exact (h sec hsec).2
      exact ⟨r, bind_ok_iff.mpr ⟨c, hc, hr⟩⟩

/-- The ABIs link when in every section the first definitions pass. -/
lemma writeAbi_error_iff {abis : List Abi} : (∃ msg, writeAbi abis = some (.error msg)) ↔
    ∃ sec ∈ Section.all, ¬ sec.FirstsPass (mergeOrder abis) := by
  unfold writeAbi mergeOrder
  cases hlast : abis.getLast? with
  | none => simp [Section.FirstsPass, KeyedMerge.FirstsPass]
  | some last =>
    have hok : (∃ r, last.mergeAll abis = .ok r) ↔ _ := Abi.mergeAll_ok_iff
    simp only [acceptsAll_iff_firstsPass] at hok
    have hno : (∃ msg, last.mergeAll abis = .error msg) ↔ ¬ ∃ r, last.mergeAll abis = .ok r := by
      cases last.mergeAll abis with
      | error msg => simp
      | ok r => simp
    simp only [Option.map_some, Option.some.injEq]
    rw [hno, hok]
    push Not
    exact Iff.rfl

lemma writeAbi_ok_iff {abis : List Abi} {r : Abi} : writeAbi abis = some (.ok r) ↔
    ∃ last, abis.getLast? = some last ∧ last.mergeAll abis = .ok r := by
  unfold writeAbi
  rw [Option.map_eq_some_iff]

/-- An order that does not fail ends with a result. -/
lemma exists_writeAbi {abis : List Abi} {last : Abi} (hlast : abis.getLast? = some last)
    (h : ¬ ∃ msg, writeAbi abis = some (.error msg)) :
    ∃ r, last.mergeAll abis = .ok r ∧ writeAbi abis = some (.ok r) := by
  cases hr : last.mergeAll abis with
  | error msg =>
    refine absurd ⟨msg, ?_⟩ h
    unfold writeAbi
    rw [hlast, Option.map_some, hr]
  | ok r => exact ⟨r, rfl, writeAbi_ok_iff.mpr ⟨last, hlast, hr⟩⟩

section agrees

variable {abis abis' : List Abi} {sec : Section}

lemma mem_of_perm_map (hperm : abis'.Perm abis) (b : List sec.Obj) :
    b ∈ abis'.map sec.objs ↔ b ∈ abis.map sec.objs := (hperm.map sec.objs).mem_iff

/-- ABIs that agree link in every order. -/
lemma not_error_of_agrees (h : ∀ sec ∈ Section.all, sec.Agrees abis) (hperm : abis'.Perm abis) :
    ¬ ∃ msg, writeAbi abis' = some (.error msg) := by
  rw [writeAbi_error_iff]
  push Not
  intro sec hsec
  unfold mergeOrder
  cases hlast : abis'.getLast? with
  | none => trivial
  | some last =>
    refine acceptsAll_iff_firstsPass.mp ((h sec hsec).acceptsAll (fun o ho => ?_) fun b hb => ?_)
    · exact ⟨_, List.mem_map_of_mem (hperm.mem_iff.mp (List.mem_of_getLast? hlast)), ho⟩
    · exact (mem_of_perm_map hperm b).mp hb

/-- The result has the definitions of all ABIs. -/
lemma mem_of_agrees {r : Abi} (hsec : sec ∈ Section.all) (h : sec.Agrees abis)
    (hperm : abis'.Perm abis) (hr : writeAbi abis' = some (.ok r)) (o : sec.Obj) :
    o ∈ sec.objs r ↔ ∃ x ∈ abis.map sec.objs, o ∈ x := by
  obtain ⟨last, hlast, hmerge⟩ := writeAbi_ok_iff.mp hr
  rw [Abi.objs_mergeAll hsec hmerge]
  refine h.mem_joinAll ?_ (mem_of_perm_map hperm)
  exact List.mem_map_of_mem (hperm.mem_iff.mp (List.mem_of_getLast? hlast))

/-- Every ABI can be the last one. -/
lemma exists_last {x : Abi} (hx : x ∈ abis) :
    ∃ abis' : List Abi, abis'.Perm abis ∧ abis'.getLast? = some x :=
  ⟨abis.erase x ++ [x], (List.perm_append_singleton _ _).trans (List.perm_cons_erase hx).symm,
    List.getLast?_concat⟩

/-- What the result of every order being the same says about the definitions. -/
lemma agrees_of_orderIndependent (h : OrderIndependent abis) (hsec : sec ∈ Section.all)
    (hlinks : ∀ abis', abis'.Perm abis → ¬ ∃ msg, writeAbi abis' = some (.error msg)) :
    sec.Agrees abis := by
  have hresult : ∀ x ∈ abis, ∃ ys r, ys.Perm abis ∧ x.mergeAll ys = .ok r ∧
      writeAbi ys = some (.ok r) := by
    intro x hx
    obtain ⟨ys, hperm, hlast⟩ := exists_last hx
    obtain ⟨r, hr, hwrite⟩ := exists_writeAbi hlast (hlinks ys hperm)
    exact ⟨ys, r, hperm, hr, hwrite⟩
  constructor
  · intro x hx y hy
    obtain ⟨a, ha, rfl⟩ := List.mem_map.mp hx
    obtain ⟨ys, r, hperm, hr, -⟩ := hresult a ha
    have hacc := Abi.mergeAll_ok_iff.mp ⟨r, hr⟩ sec hsec
    exact ((acceptsAll_iff fun k => Iff.rfl).mp hacc).1 y ((mem_of_perm_map hperm y).mpr hy)
  · -- the definitions of a name are those of the last ABI that has it
    rintro x hx y hy o ho ⟨p, hp, hpo⟩
    obtain ⟨a, ha, rfl⟩ := List.mem_map.mp hx
    obtain ⟨b, hb, rfl⟩ := List.mem_map.mp hy
    obtain ⟨xs, r, hxs, hr, hrw⟩ := hresult a ha
    obtain ⟨ys, q, hys, hq, hqw⟩ := hresult b hb
    obtain ⟨last, hlast⟩ : ∃ last, abis.getLast? = some last := by
      cases hl : abis.getLast? with
      | none =>
        rw [List.getLast?_eq_none_iff.mp hl] at ha
        exact absurd ha List.not_mem_nil
      | some last => exact ⟨last, rfl⟩
    obtain ⟨c, -, hc⟩ := exists_writeAbi hlast (hlinks abis (List.Perm.refl _))
    have hor : o ∈ sec.objs r := by
      rw [Abi.objs_mergeAll hsec hr]
      exact mem_joinAll_of_mem ho
    have hoq : o ∈ sec.objs q :=
      ((h ys hys).2 c q hc hqw sec hsec o).mp (((h xs hxs).2 c r hc hrw sec hsec o).mpr hor)
    rw [Abi.objs_mergeAll hsec hq, mem_joinAll_of_key ⟨p, hp, hpo⟩] at hoq
    exact hoq

end agrees

/-- The link does not depend on the order of the ABIs exactly when they agree, or when no order
links. -/
theorem orderIndependent_iff (abis : List Abi) : OrderIndependent abis ↔
    (∀ sec ∈ Section.all, sec.Agrees abis) ∨
      ∀ abis', abis'.Perm abis → ∃ sec ∈ Section.all, ¬ sec.FirstsPass (mergeOrder abis') := by
  constructor
  · intro h
    by_cases hlinks : ∃ abis', abis'.Perm abis ∧ ¬ ∃ msg, writeAbi abis' = some (.error msg)
    · obtain ⟨abis₁, hperm₁, hok₁⟩ := hlinks
      have hok : ¬ ∃ msg, writeAbi abis = some (.error msg) := fun herr =>
        hok₁ ((h abis₁ hperm₁).1.mp herr)
      exact .inl fun sec hsec => agrees_of_orderIndependent h hsec fun abis' hperm herr =>
        hok ((h abis' hperm).1.mpr herr)
    · push Not at hlinks
      exact .inr fun abis' hperm => writeAbi_error_iff.mp (hlinks abis' hperm)
  · rintro (h | h) abis' hperm
    · have hok := not_error_of_agrees h (List.Perm.refl _)
      have hok' := not_error_of_agrees h hperm
      refine ⟨⟨fun herr => absurd herr hok, fun herr => absurd herr hok'⟩, ?_⟩
      intro a a' ha ha' sec hsec o
      rw [mem_of_agrees hsec (h sec hsec) (List.Perm.refl _) ha,
        mem_of_agrees hsec (h sec hsec) hperm ha']
    · have herr := writeAbi_error_iff.mpr (h abis (List.Perm.refl _))
      refine ⟨⟨fun _ => writeAbi_error_iff.mpr (h abis' hperm), fun _ => herr⟩, ?_⟩
      intro a a' ha
      obtain ⟨msg, hmsg⟩ := herr
      rw [hmsg] at ha
      cases ha

/-- An ABI with one variant. -/
def choiceAbi (types : List String) : Abi where
  version := .initial
  types := []
  structs := []
  actions := []
  tables := []
  ricardianClauses := []
  variants := [⟨"choice", types⟩]

/-- One variant has an alternative more: the ABIs link in one order only. -/
theorem exists_order_dependent : ∃ abis, ¬ OrderIndependent abis := by
  refine ⟨[choiceAbi ["name", "string"], choiceAbi ["name"]], fun h => ?_⟩
  have hperm : [choiceAbi ["name"], choiceAbi ["name", "string"]].Perm
      [choiceAbi ["name", "string"], choiceAbi ["name"]] := List.Perm.swap _ _ _
  have hok : writeAbi [choiceAbi ["name", "string"], choiceAbi ["name"]]
      = some (.ok (choiceAbi ["name"])) := by decide
  have herr : writeAbi [choiceAbi ["name"], choiceAbi ["name", "string"]] = some (.error
      "Error, ABI structs malformed : choice already defined") := by decide
  obtain ⟨msg, hmsg⟩ := (h _ hperm).1.mpr ⟨_, herr⟩
  rw [hok] at hmsg
  cases hmsg

end UosioCdt.Tools
