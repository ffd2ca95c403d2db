import UosioCdt.Contracts.ChangeTheorems

/-!
# Runs of one `multi_index` object

A run is a sequence of calls that return, on references and iterators to live items. Everything that
holds of all runs is proved from what one call can do.
-/

namespace UosioCdt.Contracts

open MultiIndex OrderedTable Aborting

/-! ## Calls -/

/-- A call on an index. -/
inductive IndexCall (κ : Type)
  | find (secondary : κ)
  | requireFind (secondary : κ) (errorMsg : String)
  | getObj (secondary : κ) (errorMsg : String)
  | lowerBound (secondary : κ)
  | upperBound (secondary : κ)
  | cbegin
  | next (itr : Option ℕ)
  | previous (itr : Option ℕ)
  | iteratorTo (obj : ℕ)
  | erase (itr : Option ℕ)

/-- A call on the table or on one of its indices. `modifyItr` is the `modify` of both. -/
inductive Call (T κ : Type)
  | emplace (payer : ℕ) (constructor : T → T)
  | modifyObj (obj payer : ℕ) (updater : T → T)
  | modifyItr (itr : Option ℕ) (payer : ℕ) (updater : T → T)
  | eraseObj (obj : ℕ)
  | erase (itr : Option ℕ)
  | find (primary : ℕ)
  | requireFind (primary : ℕ) (errorMsg : String)
  | getObj (primary : ℕ) (errorMsg : String)
  | lowerBound (primary : ℕ)
  | upperBound (primary : ℕ)
  | cbegin
  | next (itr : Option ℕ)
  | previous (itr : Option ℕ)
  | iteratorTo (obj : ℕ)
  | availablePrimaryKey
  | index (number : ℕ) (call : IndexCall κ)

/-- What a call returns. -/
inductive Answer
  | nothing
  | iterator (itr : Option ℕ)
  | reference (obj : ℕ)
  | key (primary : ℕ)

variable {C T κ ρ : Type} [LinearOrder ρ]

def IndexCall.exec (m : MultiIndex C T κ ρ) (number : ℕ) : IndexCall κ → Fn C T Answer
  | .find secondary => .iterator <$> Index.find m number secondary
  | .requireFind secondary errorMsg => .iterator <$> Index.requireFind m number secondary errorMsg
  | .getObj secondary errorMsg => .reference <$> Index.getObj m number secondary errorMsg
  | .lowerBound secondary => .iterator <$> Index.lowerBound m number secondary
  | .upperBound secondary => .iterator <$> Index.upperBound m number secondary
  | .cbegin => .iterator <$> Index.cbegin m number
  | .next itr => .iterator <$> Index.next m number itr
  | .previous itr => .iterator <$> Index.previous m number itr
  | .iteratorTo obj => .iterator <$> Index.iteratorTo m number obj
  | .erase itr => .iterator <$> Index.erase m number itr

def Call.exec [Inhabited T] [DecidableEq κ] (m : MultiIndex C T κ ρ) : Call T κ → Fn C T Answer
  | .emplace payer constructor => .iterator <$> m.emplace payer constructor
  | .modifyObj obj payer updater => (fun _ => .nothing) <$> m.modifyObj obj payer updater
  | .modifyItr itr payer updater => (fun _ => .nothing) <$> m.modifyItr itr payer updater
  | .eraseObj obj => (fun _ => .nothing) <$> m.eraseObj obj
  | .erase itr => .iterator <$> m.erase itr
  | .find primary => .iterator <$> m.find primary
  | .requireFind primary errorMsg => .iterator <$> m.requireFind primary errorMsg
  | .getObj primary errorMsg => .reference <$> m.getObj primary errorMsg
  | .lowerBound primary => .iterator <$> m.lowerBound primary
  | .upperBound primary => .iterator <$> m.upperBound primary
  | .cbegin => .iterator <$> m.cbegin
  | .next itr => .iterator <$> m.next itr
  | .previous itr => .iterator <$> m.previous itr
  | .iteratorTo obj => .iterator <$> MultiIndex.iteratorTo obj
  | .availablePrimaryKey => .key <$> m.availablePrimaryKey
  | .index number call => call.exec m number

/-- An iterator is at the end or at a live item. -/
def LiveItr (s : Cache T) (itr : Option ℕ) : Prop := ∀ p, itr = some p → s.Live p

/-- A caller has references and iterators to live items, and an index of the table. -/
def IndexCall.Valid (s : Cache T) : IndexCall κ → Prop
  | .next itr | .previous itr | .erase itr => LiveItr s itr
  | .iteratorTo obj => s.Live obj
  | _ => True

def Call.Valid (m : MultiIndex C T κ ρ) (s : Cache T) : Call T κ → Prop
  | .modifyItr itr _ _ | .erase itr | .next itr | .previous itr => LiveItr s itr
  | .modifyObj obj _ _ | .eraseObj obj | .iteratorTo obj => s.Live obj
  | .index number call => number < m.indices ∧ call.Valid s
  | _ => True

/-- A call that discards an item if it gets through its checks. -/
def IndexCall.IsErase : IndexCall κ → Prop
  | .erase (some _) => True
  | _ => False

def Call.IsErase : Call T κ → Prop
  | .eraseObj _ | .erase (some _) => True
  | .index _ call => call.IsErase
  | _ => False

/-! ## Runs -/

/-- The states of a run, the last one first. -/
inductive Run [Inhabited T] [DecidableEq κ] (m : MultiIndex C T κ ρ) (start : State C T) :
    List (State C T) → Prop
  | start : Run m start [start]
  | call {past : List (State C T)} {s s' : State C T} {a : Answer} (c : Call T κ)
      (hrun : Run m start (s :: past)) (hvalid : c.Valid m s.toCache)
      (hexec : c.exec m s = .ok a s') : Run m start (s' :: s :: past)

/-- A new object over a database that the class has written. -/
structure Starts [Inhabited T] (m : MultiIndex C T κ ρ) (d : OrderedMaps m.db m.rank)
    (s : State C T) : Prop where
  db : DbOk m d s.chain
  new : s.toCache = Cache.new s.self

/-! ## What one call can do -/

/-- What the first call of `available_primary_key` finds in a table. -/
def firstPrimaryKey (t : Table ℕ Row) : ℕ :=
  match t.getLast? with
  | none => 0
  | some e => if e.key ≥ noAvailablePrimaryKey then noAvailablePrimaryKey else e.key + 1

/-- `_next_primary_key` after it was asked for. -/
def counted (t : Table ℕ Row) (next : ℕ) : ℕ :=
  if next = unsetNextPrimaryKey then firstPrimaryKey t else next

/-- The changes of a call that returns. -/
inductive Effect (m : MultiIndex C T κ ρ) (d : OrderedMaps m.db m.rank) [DecidableEq κ]
    (s s' : State C T) : Prop
  | lookup (h : Steady m d s s')
  | count (s1 : State C T) (h : Steady m d s s1)
      (hs' : s' = { s1 with nextPrimaryKey := counted (d.rows s.chain) s.nextPrimaryKey })
  | emplace (obj : T) (it : Option ℕ) (h : Emplaced m d obj s s' it)
  | modify (p payer : ℕ) (old new : T) (hlive : s.Live p) (hold : (s.items p).obj = old)
      (h : Modified m d p payer old new s s')
  | erase (pk : ℕ) (h : Erased m d pk s s')

variable {m : MultiIndex C T κ ρ} {d : OrderedMaps m.db m.rank} {s s' : State C T}

/-- A live iterator of the table is at the row of its item. -/
lemma LiveItr.pointsTo {itr : Option ℕ} (h : Inv m d s) (hl : LiveItr s.toCache itr) :
    ∃ o, PointsTo m d s itr o := by
  cases itr with
  | none => exact ⟨none, trivial⟩
  | some p =>
    obtain ⟨e, he, hholds, -⟩ := h.cache.row (hl p rfl)
    exact ⟨some e, he, hl p rfl, hholds⟩

/-- A live iterator of an index is at the entry of its item. -/
lemma LiveItr.pointsToEntry {itr : Option ℕ} {i : ℕ} (h : Inv m d s) (hi : i < m.indices)
    (hl : LiveItr s.toCache itr) : ∃ o, PointsToEntry m d i s itr o := by
  cases itr with
  | none => exact ⟨none, trivial⟩
  | some p =>
    obtain ⟨e, he, hholds, -⟩ := h.cache.row (hl p rfl)
    obtain ⟨x, hx, hof⟩ := h.db.indexed he hholds hi
    exact ⟨some x, hx.mem, hl p rfl, hof⟩

lemma PointsTo.some_inv {p : ℕ} {o} (h : PointsTo m d s (some p) o) :
    ∃ e, o = some e ∧ PointsTo m d s (some p) (some e) := by
  cases o with
  | none => exact h.elim
  | some e => exact ⟨e, rfl, h⟩

lemma PointsToEntry.some_inv {i p : ℕ} {o} (h : PointsToEntry m d i s (some p) o) :
    ∃ x, o = some x ∧ PointsToEntry m d i s (some p) (some x) := by
  cases o with
  | none => exact h.elim
  | some x => exact ⟨x, rfl, h⟩

/-- The key that `available_primary_key` starts from is behind the last row. -/
lemma initNextPrimaryKey_spec (h : Inv m d s) : Returns m.initNextPrimaryKey s fun _ s' =>
    ∃ s1, Steady m d s s1 ∧
      s' = { s1 with nextPrimaryKey := firstPrimaryKey (d.rows s.chain) } := by
  unfold initNextPrimaryKey firstPrimaryKey
  refine (cbegin_spec h).bind ?_
  rintro it s1 ⟨hsteady, hpoints⟩
  cases hrows : d.rows s.chain with
  | nil =>
    rw [hrows] at hpoints
    cases it with
    | some p => exact hpoints.elim
    | none =>
      rw [if_pos rfl]
      exact ⟨s1, hsteady, rfl⟩
  | cons e es =>
    rw [hrows] at hpoints
    cases it with
    | none => exact hpoints.elim
    | some p =>
      rw [if_neg (by simp)]
      have hend : PointsTo m d s1 none none := trivial
      rw [meets_bind]
      refine (previous_spec hsteady.inv hend).mono ?_ ?_
      · rintro it' s2 ⟨hsteady', e', hlast, hpoints'⟩
        rw [hsteady.chain, hrows] at hlast
        cases it' with
        | none => exact hpoints'.elim
        | some q =>
          obtain ⟨-, hlive, hholds⟩ := hpoints'
          rw [meets_bind, meets_deref, meets_bind, meets_readItem hlive, hholds.2]
          refine ⟨s2, hsteady.trans hsteady', ?_⟩
          rw [show (e :: es).getLast? = some e' from hlast]
      · rintro _ s2 ⟨-, hnone⟩
        rw [hsteady.chain, hrows] at hnone
        simp [inFront] at hnone

theorem availablePrimaryKey_spec (h : Inv m d s) :
    Meets m.availablePrimaryKey s
      (fun k s' => ∃ s1, Steady m d s s1 ∧
        s' = { s1 with nextPrimaryKey := counted (d.rows s.chain) s.nextPrimaryKey } ∧
        k = counted (d.rows s.chain) s.nextPrimaryKey ∧ k < noAvailablePrimaryKey)
      fun _ s' => noAvailablePrimaryKey ≤ counted (d.rows s.chain) s.nextPrimaryKey ∧
        s'.readDiscarded = s.readDiscarded := by
  have hensure : Returns m.ensureNextPrimaryKey s fun _ s' => ∃ s1, Steady m d s s1 ∧
      s' = { s1 with nextPrimaryKey := counted (d.rows s.chain) s.nextPrimaryKey } := by
    unfold ensureNextPrimaryKey counted Returns
    rw [meets_bind, meets_get]
    by_cases hunset : s.nextPrimaryKey = unsetNextPrimaryKey
    · rw [if_pos hunset, if_pos hunset]
      exact initNextPrimaryKey_spec h
    · rw [if_neg hunset, if_neg hunset]
      exact ⟨s, Steady.refl h, rfl⟩
  unfold availablePrimaryKey
  refine hensure.bind ?_
  rintro _ _ ⟨s1, hsteady, rfl⟩
  rw [meets_bind, meets_get]
  by_cases hlt : counted (d.rows s.chain) s.nextPrimaryKey < noAvailablePrimaryKey
  · rw [meets_bind, meets_check_pos hlt, meets_bind, meets_get, meets_pure]
    exact ⟨s1, hsteady, rfl, rfl, hlt⟩
  · rw [meets_bind, meets_check_neg hlt]
    exact ⟨not_lt.mp hlt, hsteady.readDiscarded⟩

lemma CacheOk.renumbered {next : ℕ} (h : CacheOk m d s) :
    CacheOk m d { s with nextPrimaryKey := next } :=
  ⟨h.allocated, h.nodup, h.primaryKey, h.primaryItr, h.item, h.unique⟩

/-! ## All calls -/

section Exec

variable [DecidableEq κ]

/-- A call that changes nothing returns or aborts without reading a discarded item. -/
lemma Meets.lookup {α : Type} {x : Fn C T α} {f : α → Answer} {P : α → State C T → Prop}
    {F : String → State C T → Prop} (hx : Meets x s (fun a s' => Steady m d s s' ∧ P a s') F)
    (hf : ∀ e s', F e s' → s'.readDiscarded = s.readDiscarded) :
    Meets (f <$> x) s (fun _ s' => Effect m d s s' ∧ s'.readDiscarded = s.readDiscarded)
      fun _ s' => s'.readDiscarded = s.readDiscarded := by
  rw [meets_map]
  refine hx.mono ?_ hf
  rintro a s' ⟨hsteady, -⟩
  exact ⟨.lookup hsteady, hsteady.readDiscarded⟩

lemma Returns.lookup {α : Type} {x : Fn C T α} {f : α → Answer} {P : α → State C T → Prop}
    (hx : Returns x s fun a s' => Steady m d s s' ∧ P a s') :
    Meets (f <$> x) s (fun _ s' => Effect m d s s' ∧ s'.readDiscarded = s.readDiscarded)
      fun _ s' => s'.readDiscarded = s.readDiscarded :=
  Meets.lookup hx fun _ _ hfalse => hfalse.elim

/-- At an end iterator a call aborts at once. -/
lemma meets_end {α : Type} {x : Fn C T α} {f : α → Answer} {message : String}
    {Q : Answer → State C T → Prop} (hx : x s = .error message s) :
    Meets (f <$> x) s Q fun _ s' => s'.readDiscarded = s.readDiscarded := by
  rw [meets_map]
  unfold Meets
  rw [hx]

lemma IndexCall.exec_spec (h : Inv m d s) {i : ℕ} (hi : i < m.indices) {c : IndexCall κ}
    (hv : c.Valid s.toCache) (hc : ¬ c.IsErase) :
    Meets (c.exec m i) s (fun _ s' => Effect m d s s' ∧ s'.readDiscarded = s.readDiscarded)
      fun _ s' => s'.readDiscarded = s.readDiscarded := by
  cases c with
  | find secondary => exact Returns.lookup (indexFind_spec h hi secondary)
  | requireFind secondary errorMsg =>
    exact Meets.lookup (indexRequireFind_spec h hi secondary errorMsg) fun _ _ h => h.1.readDiscarded
  | getObj secondary errorMsg =>
    exact Meets.lookup (indexGetObj_spec h hi secondary errorMsg) fun _ _ h => h.1.readDiscarded
  | lowerBound secondary => exact Returns.lookup (indexLowerBound_spec h hi secondary)
  | upperBound secondary => exact Returns.lookup (indexUpperBound_spec h hi secondary)
  | cbegin => exact Returns.lookup (indexCbegin_spec h hi)
  | next itr =>
    cases itr with
    | none => exact meets_end rfl
    | some p =>
      obtain ⟨o, hpoints⟩ := LiveItr.pointsToEntry h hi hv
      obtain ⟨x, -, hpoints⟩ := hpoints.some_inv
      exact Returns.lookup (indexNext_spec h hi hpoints)
  | previous itr =>
    obtain ⟨o, hpoints⟩ := LiveItr.pointsToEntry h hi hv
    exact Meets.lookup (indexPrevious_spec h hi hpoints) fun _ _ h => h.1.readDiscarded
  | iteratorTo obj => exact Returns.lookup (indexIteratorTo_spec h hi hv)
  | erase itr =>
    cases itr with
    | none => exact meets_end rfl
    | some p => exact absurd trivial hc

variable [Inhabited T]

/-- A call that is no `erase`. -/
lemma Call.exec_spec (h : Inv m d s) {c : Call T κ} (hv : c.Valid m s.toCache) (hc : ¬ c.IsErase) :
    Meets (c.exec m) s (fun _ s' => Effect m d s s' ∧ s'.readDiscarded = s.readDiscarded)
      fun _ s' => s'.readDiscarded = s.readDiscarded := by
  have hmodify : ∀ p payer updater, s.Live p → Meets (m.modifyObj p payer updater) s
      (fun _ s' => Effect m d s s' ∧ s'.readDiscarded = s.readDiscarded)
      fun _ s' => s'.readDiscarded = s.readDiscarded := by
    intro p payer updater hp
    refine (modifyObj_spec h hp payer updater).mono ?_ fun _ _ h => h.1
    intro _ s' hmodified
    exact ⟨.modify p payer _ _ hp rfl hmodified, hmodified.readDiscarded⟩
  cases c with
  | emplace payer constructor =>
    refine meets_map.mpr ((emplace_spec h payer constructor).mono ?_ fun _ _ h => h.1)
    intro it s' hemplaced
    exact ⟨.emplace _ it hemplaced, hemplaced.readDiscarded⟩
  | modifyObj obj payer updater => exact meets_map.mpr (hmodify obj payer updater hv)
  | modifyItr itr payer updater =>
    cases itr with
    | none => exact meets_end rfl
    | some p =>
      refine meets_map.mpr ?_
      unfold MultiIndex.modifyItr
      rw [meets_bind, meets_check_pos (by simp), meets_bind, meets_deref]
      exact hmodify p payer updater (hv p rfl)
  | eraseObj obj => exact absurd trivial hc
  | erase itr =>
    cases itr with
    | none => exact meets_end rfl
    | some p => exact absurd trivial hc
  | find primary => exact Returns.lookup (find_spec h primary)
  | requireFind primary errorMsg =>
    exact Meets.lookup (requireFind_spec h primary errorMsg) fun _ _ h => by rw [h.1]
  | getObj primary errorMsg =>
    exact Meets.lookup (getObj_spec h primary errorMsg) fun _ _ h => h.1.readDiscarded
  | lowerBound primary => exact Returns.lookup (lowerBound_spec h primary)
  | upperBound primary => exact Returns.lookup (upperBound_spec h primary)
  | cbegin => exact Returns.lookup (cbegin_spec h)
  | next itr =>
    cases itr with
    | none => exact meets_end rfl
    | some p =>
      obtain ⟨o, hpoints⟩ := LiveItr.pointsTo h hv
      obtain ⟨e, -, hpoints⟩ := hpoints.some_inv
      exact Returns.lookup (next_spec h hpoints)
  | previous itr =>
    obtain ⟨o, hpoints⟩ := LiveItr.pointsTo h hv
    exact Meets.lookup (previous_spec h hpoints) fun _ _ h => by rw [h.1]
  | iteratorTo obj =>
    refine meets_map.mpr ((iteratorTo_spec h hv).meets.mono ?_ fun _ _ hfalse => hfalse)
    rintro it s' ⟨heq, -⟩
    subst s'
    exact ⟨.lookup (Steady.refl h), rfl⟩
  | availablePrimaryKey =>
    refine meets_map.mpr ((availablePrimaryKey_spec h).mono ?_ fun _ _ h => h.2)
    rintro k _ ⟨s1, hsteady, rfl, -, -⟩
    exact ⟨.count s1 hsteady rfl, hsteady.readDiscarded⟩
  | index number call => exact IndexCall.exec_spec h hv.1 hv.2 hc

/-- An `erase` on an item: it reads the item behind its discarding, unless its checks stop it. -/
lemma Call.exec_erase_spec (h : Inv m d s) {c : Call T κ} (hv : c.Valid m s.toCache)
    (hc : c.IsErase) :
    Meets (c.exec m) s
      (fun _ s' => Effect m d s s' ∧ m.code = m.receiver ∧ s'.readDiscarded = true)
      fun _ s' => m.code ≠ m.receiver ∧ s'.readDiscarded = s.readDiscarded := by
  cases c with
  | eraseObj obj =>
    refine meets_map.mpr ((eraseObj_spec h hv).mono ?_ ?_)
    · rintro _ s' ⟨herased, hcode⟩
      exact ⟨.erase _ herased, hcode, herased.readDiscarded⟩
    · rintro _ s' ⟨heq, hcode⟩
      exact ⟨hcode, by rw [heq]⟩
  | erase itr =>
    cases itr with
    | none => exact hc.elim
    | some p =>
      obtain ⟨o, hpoints⟩ := LiveItr.pointsTo h hv
      obtain ⟨e, -, hpoints⟩ := hpoints.some_inv
      refine meets_map.mpr ((erase_spec h hpoints).mono ?_ ?_)
      · rintro _ s' ⟨herased, hcode, -⟩
        exact ⟨.erase _ herased, hcode, herased.readDiscarded⟩
      · rintro _ s' ⟨hsteady, hcode⟩
        exact ⟨hcode, hsteady.readDiscarded⟩
  | index number call =>
    obtain ⟨hi, hv⟩ := hv
    cases call with
    | erase itr =>
      cases itr with
      | none => exact hc.elim
      | some p =>
        obtain ⟨o, hpoints⟩ := LiveItr.pointsToEntry h hi hv
        obtain ⟨x, -, hpoints⟩ := hpoints.some_inv
        refine meets_map.mpr ((indexErase_spec h hi hpoints).mono ?_ ?_)
        · rintro _ s' ⟨herased, hcode, -⟩
          exact ⟨.erase _ herased, hcode, herased.readDiscarded⟩
        · rintro _ s' ⟨hsteady, hcode⟩
          exact ⟨hcode, hsteady.readDiscarded⟩
    | _ => exact hc.elim
  | _ => exact hc.elim

/-- What a call that returns has done. -/
theorem Call.effect {c : Call T κ} {a : Answer} (h : Inv m d s) (hv : c.Valid m s.toCache)
    (hexec : c.exec m s = .ok a s') : Effect m d s s' := by
  by_cases hc : c.IsErase
  · exact ((exec_erase_spec h hv hc).of_ok hexec).1
  · exact ((exec_spec h hv hc).of_ok hexec).1

/-! ## What holds of a run -/

omit [Inhabited T] in
lemma Effect.inv (h : Effect m d s s') : Inv m d s' := by
  cases h with
  | lookup h => exact h.inv
  | count s1 h hs' =>
    rw [hs']
    exact ⟨h.inv.db, h.inv.cache.renumbered⟩
  | emplace obj it h => exact h.inv
  | modify p payer old new hlive hold h => exact h.inv
  | erase pk h => exact h.inv

omit [DecidableEq κ] in
lemma Starts.inv (h : Starts m d s) : Inv m d s := by
  have hempty : s.itemsVector = [] := by
    rw [h.new]
    rfl
  refine ⟨h.db, ?_⟩
  constructor
  case nodup =>
    rw [hempty]
    exact List.nodup_nil
  all_goals
    intro ptr hptr
    rw [hempty] at hptr
    cases hptr

theorem Run.inv {start : State C T} {past : List (State C T)} (hstart : Starts m d start)
    (h : Run m start (s :: past)) : Inv m d s := by
  generalize hstates : s :: past = states at h
  induction h generalizing s past with
  | start =>
    cases hstates
    exact hstart.inv
  | call c hrun hvalid hexec ih =>
    cases hstates
    exact (c.effect (ih rfl) hvalid hexec).inv

end Exec

end UosioCdt.Contracts
