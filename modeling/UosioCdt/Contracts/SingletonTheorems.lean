import UosioCdt.Contracts.ListChain
import UosioCdt.Contracts.Singleton

/-!
# A singleton is an optional cell

Whatever object a call is made on, as long as no other has written since it was constructed, the
call does to the database what it does to one `Option` cell.
-/

namespace UosioCdt.Contracts.Singleton

open MultiIndex OrderedTable Aborting

variable {C T : Type}

/-! ## The cell -/

/-- What a call does to a cell. -/
def cellStep : Call T → Option T → Except String (Answer T × Option T)
  | .exists', cell => .ok (.bool cell.isSome, cell)
  | .get, none => .error "singleton does not exist"
  | .get, some value => .ok (.value value, some value)
  | .getOrDefault default_, cell => .ok (.value (cell.getD default_), cell)
  | .getOrCreate _ default_, cell => .ok (.value (cell.getD default_), some (cell.getD default_))
  | .set value _, _ => .ok (.nothing, some value)
  | .remove, _ => .ok (.nothing, none)

/-- The calls, with their answers, take one cell to another. -/
inductive Replays : List (Call T × Answer T) → Option T → Option T → Prop
  | nil {cell : Option T} : Replays [] cell cell
  | call {calls : List (Call T × Answer T)} {cell cell' cell'' : Option T} {op : Call T}
      {a : Answer T} (h : Replays calls cell cell') (hstep : cellStep op cell' = .ok (a, cell'')) :
      Replays (calls ++ [(op, a)]) cell cell''

variable {s : Singleton C T} {d : OrderedMaps s.table.db s.table.rank} {c : C}
variable {cell : Option T} {t t' : State C (Value T)} {value : T} {e : Entry ℕ Row} {p : ℕ}

/-- The table has the content of the cell: no row, or one. -/
def Represents (s : Singleton C T) (d : OrderedMaps s.table.db s.table.rank) (c : C) :
    Option T → Prop
  | none => d.rows c = []
  | some value => ∃ e, d.rows c = [e] ∧ e.key = s.pkValue ∧ s.unpack e.val.data = .ok value

/-- The chain refuses a change: the table is another contract's, or the payer cannot be billed. -/
def Refused (s : Singleton C T) (d : OrderedMaps s.table.db s.table.rank) (c : C) : Call T → Prop
  | .getOrCreate payer _ => s.empty c = true ∧ (s.code ≠ s.receiver ∨ ¬ d.bills c payer)
  | .set _ payer =>
    s.code ≠ s.receiver ∨ ¬ d.bills c payer ∧ (s.empty c = true ∨ payer ≠ samePayer)
  | .remove => s.empty c = false ∧ s.code ≠ s.receiver
  | _ => False

/-! ## The table of a cell -/

lemma holds_iff : Holds s.table e ⟨value⟩ ↔ e.key = s.pkValue ∧ s.unpack e.val.data = .ok value := by
  change (s.unpack e.val.data).map Value.mk = .ok ⟨value⟩ ∧ s.pkValue = e.key ↔ _
  cases s.unpack e.val.data with
  | error message => exact ⟨fun h => (by cases h.1), fun h => (by cases h.2)⟩
  | ok value' =>
    refine ⟨fun h => ⟨h.2.symm, ?_⟩, fun h => ⟨?_, h.1.symm⟩⟩
    · cases h.1
      rfl
    · cases h.2
      rfl

lemma Represents.rowAt (h : Represents s d c none) (pk : ℕ) : RowAt d c pk none := by
  intro e
  change d.rows c = [] at h
  rw [h]
  exact ⟨fun he => absurd he.1 List.not_mem_nil, fun heq => (by cases heq)⟩

lemma Represents.dbOk (h : Represents s d c cell) : DbOk s.table d c := by
  intro pk
  cases cell with
  | none => exact ⟨none, h.rowAt pk, fun i hi => absurd hi (Nat.not_lt_zero i)⟩
  | some value =>
    obtain ⟨e, hrows, hholds⟩ := h
    have he : e ∈ d.rows c := hrows ▸ List.mem_singleton_self e
    by_cases hpk : e.key = pk
    · subst hpk
      exact ⟨some ⟨value⟩, e, rowAt_of_mem he, holds_iff.mpr hholds,
        fun i hi => absurd hi (Nat.not_lt_zero i)⟩
    · refine ⟨none, fun e' => ⟨fun he' => ?_, fun heq => (by cases heq)⟩,
        fun i hi => absurd hi (Nat.not_lt_zero i)⟩
      rw [hrows, List.mem_singleton] at he'
      exact absurd (he'.1 ▸ he'.2) hpk

/-- Every row of the table is under the one key, so what is there is all there is. -/
lemma represents_of_slice (h : DbOk s.table d c)
    (hslice : Slice s.table d c s.pkValue (cell.map Value.mk)) : Represents s d c cell := by
  have hkey : ∀ e ∈ d.rows c, e.key = s.pkValue := by
    intro e he
    obtain ⟨obj, hholds, -⟩ := h.row he
    exact (holds_iff.mp hholds).1
  cases cell with
  | none =>
    refine List.eq_nil_iff_forall_not_mem.mpr fun e he => ?_
    cases (hslice.1 e).mp ⟨he, hkey e he⟩
  | some value =>
    obtain ⟨e, hrow, hholds, -⟩ := hslice
    have heq : ∀ e' ∈ d.rows c, e' = e := fun e' he' => hrow.eq he' (hkey e' he')
    have hsorted := d.rows_sorted c
    refine ⟨e, ?_, holds_iff.mp hholds⟩
    have hmem := hrow.mem
    cases hrows : d.rows c with
    | nil =>
      rw [hrows] at hmem
      cases hmem
    | cons x xs =>
      rw [hrows] at heq hsorted
      rw [heq x List.mem_cons_self] at hsorted ⊢
      cases xs with
      | nil => rfl
      | cons y ys =>
        have hlt := List.rel_of_pairwise_cons hsorted List.mem_cons_self
        rw [heq y (List.mem_cons_of_mem x List.mem_cons_self)] at hlt
        exact absurd hlt (lt_irrefl _)

lemma Represents.empty (h : Represents s d c cell) : s.empty c = true ↔ cell = none := by
  have hfind := d.find_row c s.pkValue
  change decide (s.db.findI64 c s.pkValue < 0) = true ↔ _
  rw [decide_eq_true_iff]
  change IsHandle (s.db.findI64 c s.pkValue) _ at hfind
  cases cell with
  | none =>
    change d.rows c = [] at h
    rw [h] at hfind
    exact ⟨fun _ => rfl, fun _ => hfind⟩
  | some value =>
    obtain ⟨e, hrows, hkey, -⟩ := h
    have he : e ∈ d.rows c := hrows ▸ List.mem_singleton_self e
    rw [← hkey, lookup_eq_some (d.rows_sorted c) he] at hfind
    have hnonneg := d.rows_itr c e he
    change s.db.findI64 c e.key = e.itr at hfind
    rw [← hkey, hfind]
    exact ⟨fun hlt => absurd hnonneg (not_le.mpr hlt), fun heq => (by cases heq)⟩

/-! ## The parts of a call -/

lemma meets_valueAt {Q : T → State C (Value T) → Prop} {E : String → State C (Value T) → Prop}
    (h : t.Live p) : Meets (valueAt (some p)) t Q E ↔ Q (t.items p).obj.value t := by
  unfold valueAt
  rw [meets_bind, meets_deref, meets_bind, meets_readItem h]
  exact meets_pure

variable [Inhabited T]

omit [Inhabited T] in
/-- The row of the singleton is found where the cell is full. -/
lemma find_cell (h : Inv s.table d t) (hcell : Represents s d t.chain cell) :
    Returns (s.table.find s.pkValue) t fun itr t' => Steady s.table d t t' ∧
      (itr = none ∧ cell = none ∨ ∃ p e value, itr = some p ∧ cell = some value ∧
        e.key = s.pkValue ∧ PointsTo s.table d t' (some p) (some e) ∧
        (t'.items p).obj = ⟨value⟩) := by
  refine (find_spec h s.pkValue).mono ?_
  rintro itr t' ⟨hsteady, hpoints⟩
  refine ⟨hsteady, ?_⟩
  cases cell with
  | none =>
    change d.rows t.chain = [] at hcell
    rw [hcell] at hpoints
    cases itr with
    | none => exact .inl ⟨rfl, rfl⟩
    | some p => exact hpoints.elim
  | some value =>
    obtain ⟨e, hrows, hkey, hunpack⟩ := hcell
    have he : e ∈ d.rows t.chain := hrows ▸ List.mem_singleton_self e
    rw [← hkey, lookup_eq_some (d.rows_sorted t.chain) he] at hpoints
    cases itr with
    | none => exact hpoints.elim
    | some p =>
      exact .inr ⟨p, e, value, rfl, rfl, hkey, hpoints,
        hpoints.2.2.eq (holds_iff.mpr ⟨hkey, hunpack⟩)⟩

/-! ## One call -/

/-- What a call has done when it returns: the cell's step, and nothing to the database unless it
wrote. -/
structure Stepped (s : Singleton C T) (d : OrderedMaps s.table.db s.table.rank) (op : Call T)
    (cell : Option T) (t : State C (Value T)) (a : Answer T) (t' : State C (Value T)) : Prop where
  cell : ∃ cell', cellStep op cell = .ok (a, cell') ∧ Represents s d t'.chain cell'
  inv : Inv s.table d t'
  chain : op.writes s t.chain = false → t'.chain = t.chain

omit [Inhabited T] in
lemma stepped_of_steady {op : Call T} {a : Answer T} (h : Steady s.table d t t')
    (hcell : Represents s d t.chain cell) (hstep : cellStep op cell = .ok (a, cell)) :
    Stepped s d op cell t a t' :=
  ⟨⟨cell, hstep, h.chain ▸ hcell⟩, h.inv, fun _ => h.chain⟩

/-- A row is written where there was none. -/
lemma emplace_cell (h : Inv s.table d t) (hcell : Represents s d t.chain none) (payer : ℕ)
    (constructor : Value T → Value T) :
    Meets (s.table.emplace payer constructor) t
      (fun itr t' => Inv s.table d t' ∧
        Represents s d t'.chain (some (constructor default).value) ∧
        ∃ p, itr = some p ∧ t'.Live p ∧ (t'.items p).obj = constructor default)
      fun _ _ => s.code ≠ s.receiver ∨ ¬ d.bills t.chain payer := by
  refine (emplace_spec h payer constructor).mono ?_ ?_
  · intro itr t' hemplaced
    exact ⟨hemplaced.inv, represents_of_slice hemplaced.inv.db hemplaced.after, hemplaced.item⟩
  · rintro _ t' ⟨-, hrefused⟩
    by_contra hcan
    rw [not_or, not_not, not_not] at hcan
    exact hrefused hcan.1 rfl hcan.2 (hcell.rowAt _)

omit [Inhabited T] in
/-- The one row is written over. -/
lemma modify_cell (h : Inv s.table d t) (hp : t.Live p) (payer : ℕ) (updater : Value T → Value T) :
    Meets (s.table.modifyItr (some p) payer updater) t
      (fun _ t' => Inv s.table d t' ∧
        Represents s d t'.chain (some (updater (t.items p).obj).value))
      fun _ _ => s.code ≠ s.receiver ∨ ¬ d.bills t.chain payer ∧ payer ≠ samePayer := by
  unfold MultiIndex.modifyItr
  rw [meets_bind, meets_check_pos (by simp), meets_bind, meets_deref]
  refine (modifyObj_spec h hp payer updater).mono ?_ ?_
  · intro _ t' hmodified
    exact ⟨hmodified.inv, represents_of_slice hmodified.inv.db hmodified.after⟩
  · rintro _ t' ⟨-, hrefused⟩
    by_contra hcan
    rw [not_or, not_not, ← not_or, not_not] at hcan
    exact hrefused hcan.1 rfl hcan.2.symm rfl

lemma exec_spec (h : Inv s.table d t) (hcell : Represents s d t.chain cell) (op : Call T) :
    Meets (op.exec s) t (fun a t' => Stepped s d op cell t a t')
      fun message _ => cellStep op cell = .error message ∨ Refused s d t.chain op := by
  have hempty := hcell.empty
  cases op with
  | exists' =>
    refine meets_map.mpr ((find_cell h hcell).bind ?_)
    rintro itr t1 ⟨hsteady, ⟨rfl, rfl⟩ | ⟨p, e, value, rfl, rfl, -, -, -⟩⟩
    · exact stepped_of_steady hsteady hcell rfl
    · exact stepped_of_steady hsteady hcell rfl
  | get =>
    refine meets_map.mpr ((find_cell h hcell).bind ?_)
    rintro itr t1 ⟨hsteady, ⟨rfl, rfl⟩ | ⟨p, e, value, rfl, rfl, -, hpoints, hobj⟩⟩
    · rw [meets_bind, meets_check_neg (by simp)]
      exact .inl rfl
    · rw [meets_bind, meets_check_pos (by simp), meets_valueAt hpoints.2.1, hobj]
      exact stepped_of_steady hsteady hcell rfl
  | getOrDefault default_ =>
    refine meets_map.mpr ((find_cell h hcell).bind ?_)
    rintro itr t1 ⟨hsteady, ⟨rfl, rfl⟩ | ⟨p, e, value, rfl, rfl, -, hpoints, hobj⟩⟩
    · rw [if_neg (by simp), meets_pure]
      exact stepped_of_steady hsteady hcell rfl
    · rw [if_pos (by simp), meets_valueAt hpoints.2.1, hobj]
      exact stepped_of_steady hsteady hcell rfl
  | getOrCreate billToAccount default_ =>
    refine meets_map.mpr ((find_cell h hcell).bind ?_)
    rintro itr t1 ⟨hsteady, ⟨rfl, rfl⟩ | ⟨p, e, value, rfl, rfl, -, hpoints, hobj⟩⟩
    · rw [if_neg (by simp), meets_bind]
      have hwrites : s.empty t.chain = true := hempty.mpr rfl
      refine (emplace_cell hsteady.inv (hsteady.chain ▸ hcell) billToAccount _).mono ?_ ?_
      · rintro itr t2 ⟨hinv, hcell', p, rfl, hlive, hobj⟩
        rw [meets_valueAt hlive, hobj]
        exact ⟨⟨_, rfl, hcell'⟩, hinv, fun hkept => absurd hwrites (Bool.eq_false_iff.mp hkept)⟩
      · rintro _ t2 hrefused
        rw [hsteady.chain] at hrefused
        exact .inr ⟨hwrites, hrefused⟩
    · rw [if_pos (by simp), meets_valueAt hpoints.2.1, hobj]
      exact stepped_of_steady hsteady hcell rfl
  | set value billToAccount =>
    refine meets_map.mpr ((find_cell h hcell).bind ?_)
    rintro itr t1 ⟨hsteady, ⟨rfl, rfl⟩ | ⟨p, e, old, rfl, rfl, -, hpoints, hobj⟩⟩
    · rw [if_neg (by simp), meets_bind]
      refine (emplace_cell hsteady.inv (hsteady.chain ▸ hcell) billToAccount _).mono ?_ ?_
      · rintro itr t2 ⟨hinv, hcell', -⟩
        exact ⟨⟨_, rfl, hcell'⟩, hinv, fun hkept => absurd hkept Bool.true_eq_false.mp⟩
      · rintro _ t2 hrefused
        rw [hsteady.chain] at hrefused
        exact .inr (hrefused.imp_right fun hbill => ⟨hbill, .inl (hempty.mpr rfl)⟩)
    · rw [if_pos (by simp)]
      refine (modify_cell hsteady.inv hpoints.2.1 billToAccount _).mono ?_ ?_
      · rintro _ t2 ⟨hinv, hcell'⟩
        exact ⟨⟨_, rfl, hcell'⟩, hinv, fun hkept => absurd hkept Bool.true_eq_false.mp⟩
      · rintro _ t2 hrefused
        rw [hsteady.chain] at hrefused
        exact .inr (hrefused.imp_right fun hbill => ⟨hbill.1, .inr hbill.2⟩)
  | remove =>
    refine meets_map.mpr ((find_cell h hcell).bind ?_)
    rintro itr t1 ⟨hsteady, ⟨rfl, rfl⟩ | ⟨p, e, old, rfl, rfl, hkey, hpoints, -⟩⟩
    · rw [if_neg (by simp), meets_pure]
      exact stepped_of_steady hsteady hcell rfl
    · rw [if_pos (by simp), meets_bind]
      have hfull : s.empty t.chain = false := by
        rw [Bool.eq_false_iff, Ne, hempty]
        exact Option.some_ne_none old
      refine (erase_spec hsteady.inv hpoints).mono ?_ ?_
      · rintro itr t2 ⟨herased, -⟩
        rw [hkey] at herased
        refine ⟨⟨none, rfl, represents_of_slice herased.inv.db herased.after⟩, herased.inv, ?_⟩
        intro hkept
        change (!s.empty t.chain) = false at hkept
        rw [hfull] at hkept
        cases hkept
      · rintro _ t2 ⟨-, hcode⟩
        exact .inr ⟨hfull, hcode⟩

/-! ## Many objects -/

/-- The cell is what the table has, and an object that is not outdated agrees with the table. -/
structure Agrees (s : Singleton C T) (d : OrderedMaps s.table.db s.table.rank) (y : System C T)
    (cell : Option T) : Prop where
  cell : Represents s d y.chain cell
  objects : ∀ o ∈ y.objects, o.outdated = false → Inv s.table d ⟨o.cache, y.chain⟩

lemma Agrees.construct {y : System C T} (h : Agrees s d y cell) : Agrees s d y.construct cell := by
  refine ⟨h.cell, fun o ho hfresh => ?_⟩
  rcases List.mem_append.mp ho with ho | ho
  · exact h.objects o ho hfresh
  · rw [List.mem_singleton.mp ho]
    exact Starts.inv ⟨h.cell.dbOk, rfl⟩

omit [Inhabited T] in
/-- A call that does not write leaves all objects in agreement, one that writes its own. -/
lemma Agrees.called {y : System C T} {j : ℕ} {wrote : Bool} {cell' : Option T}
    (h : Agrees s d y cell) (hinv : Inv s.table d t) (hcell : Represents s d t.chain cell')
    (hkept : wrote = false → t.chain = y.chain) : Agrees s d (y.called j wrote t) cell' := by
  refine ⟨hcell, fun o ho hfresh => ?_⟩
  obtain ⟨i, hi, rfl⟩ := List.mem_mapIdx.mp ho
  by_cases hij : i = j
  · rw [if_pos hij]
    exact hinv
  · rw [if_neg hij] at hfresh ⊢
    obtain ⟨hold, hread⟩ := Bool.or_eq_false_iff.mp hfresh
    have := h.objects _ (List.getElem_mem hi) hold
    rw [← hkept hread] at this
    exact this

lemma Run.agrees {start : System C T} {cell₀ : Option T} {calls : List (Call T × Answer T)}
    {y : System C T} (hstart : Agrees s d start cell₀) (hrun : Run s start calls y) :
    ∃ cell, Replays calls cell₀ cell ∧ Agrees s d y cell := by
  induction hrun with
  | start => exact ⟨cell₀, .nil, hstart⟩
  | construct hrun ih =>
    obtain ⟨cell, hreplays, hagrees⟩ := ih
    exact ⟨cell, hreplays, hagrees.construct⟩
  | call hrun ho hfresh hexec ih =>
    obtain ⟨cell, hreplays, hagrees⟩ := ih
    have hinv := hagrees.objects _ (List.mem_of_getElem? ho) hfresh
    have hstepped := (exec_spec hinv hagrees.cell _).of_ok hexec
    obtain ⟨cell', hstep, hcell'⟩ := hstepped.cell
    exact ⟨cell', hreplays.call hstep, hagrees.called hstepped.inv hcell' hstepped.chain⟩

omit [Inhabited T] in
lemma Represents.length_le (h : Represents s d c cell) : (d.rows c).length ≤ 1 := by
  cases cell with
  | none =>
    rw [show d.rows c = [] from h]
    exact Nat.zero_le 1
  | some value =>
    obtain ⟨e, hrows, -⟩ := h
    rw [hrows]
    exact le_rfl

/-- In every run over any number of objects the answers are those of one cell, the table has its
content, and the next call on an object that is not outdated does what it does to the cell, or is
refused by the chain. -/
theorem run_refines_cell {cell₀ : Option T} (hstart : Represents s d c cell₀)
    {calls : List (Call T × Answer T)} {y : System C T} (hrun : Run s ⟨c, []⟩ calls y) :
    ∃ cell, Replays calls cell₀ cell ∧ Represents s d y.chain cell ∧
      (d.rows y.chain).length ≤ 1 ∧
      ∀ o ∈ y.objects, o.outdated = false → ∀ op : Call T,
        Meets (op.exec s) ⟨o.cache, y.chain⟩
          (fun a t => ∃ cell', cellStep op cell = .ok (a, cell') ∧ Represents s d t.chain cell')
          fun message _ => cellStep op cell = .error message ∨ Refused s d y.chain op := by
  have hnew : Agrees s d ⟨c, []⟩ cell₀ := ⟨hstart, fun o ho => absurd ho List.not_mem_nil⟩
  obtain ⟨cell, hreplays, hagrees⟩ := hrun.agrees hnew
  refine ⟨cell, hreplays, hagrees.cell, hagrees.cell.length_le, fun o ho hfresh op => ?_⟩
  exact (exec_spec (hagrees.objects o ho hfresh) hagrees.cell op).mono
    (fun _ _ hstepped => hstepped.cell) fun _ _ herror => herror

/-! ## A byte in a cell -/

/-- A singleton of the contract itself, of one byte. -/
def byteCell : Singleton (ListChain Unit) UInt8 where
  db := ListChain.intrinsics fun _ _ => 0
  code := 1
  receiver := 1
  pkValue := 3
  pkValue_lt := by decide
  pack value := [value]
  unpack
    | [value] => .ok value
    | _ => .error "read"
  unpack_pack _ := rfl

def byteCell.maps : OrderedMaps byteCell.table.db byteCell.table.rank :=
  ListChain.ordered fun _ _ => 0

/-- The byte has been set through one object. -/
def byteSet : State (ListChain Unit) (Value UInt8) :=
  after ((Call.set 5 7).exec byteCell ⟨Cache.new 0, ListChain.empty⟩)

/-- The byte is read through an object that was constructed after it was set. -/
lemma byteCell_run : ∃ y, Run byteCell ⟨ListChain.empty, []⟩
    [(.set 5 7, .nothing), (.get, .value 5)] y := by
  have hset : (Call.set 5 7).exec byteCell ⟨Cache.new 0, ListChain.empty⟩ = .ok .nothing byteSet :=
    ok_of_answered (by decide +kernel)
  have hget := ok_of_answered (x := Call.get.exec byteCell) (s := ⟨Cache.new 1, byteSet.chain⟩)
    (a := .value 5) (by decide +kernel)
  have hnew : Run byteCell ⟨ListChain.empty, []⟩ [] (System.construct ⟨ListChain.empty, []⟩) :=
    Run.start.construct
  have hfirst := hnew.call (j := 0) (o := ⟨Cache.new 0, false⟩) rfl rfl hset
  exact ⟨_, hfirst.construct.call (j := 1) (o := ⟨Cache.new 1, false⟩) rfl rfl hget⟩

/-- The cell is empty, then it holds the byte. -/
theorem byteCell_refines : ∃ y cell,
    Replays [(.set 5 7, .nothing), (.get, .value 5)] none cell ∧
      Represents byteCell byteCell.maps y cell := by
  obtain ⟨y, hrun⟩ := byteCell_run
  have hstart : Represents byteCell byteCell.maps ListChain.empty none := rfl
  obtain ⟨cell, hreplays, hcell, -⟩ := run_refines_cell hstart hrun
  exact ⟨y.chain, cell, hreplays, hcell⟩

end UosioCdt.Contracts.Singleton
