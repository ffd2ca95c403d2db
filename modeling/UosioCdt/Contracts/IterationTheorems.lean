import UosioCdt.Contracts.ListChain
import UosioCdt.Lib.TableCursor
import Mathlib.Data.List.Find

/-!
# Iteration over a table

The table is a list of objects in the order of their primary keys, an index the same objects in the
order of its keys. Bounds, iterators and `erase` are what they are for that list.
-/

namespace UosioCdt.Contracts

open MultiIndex OrderedTable Aborting

variable {C T κ ρ : Type} [LinearOrder ρ] [Inhabited T]
variable {m : MultiIndex C T κ ρ} {d : OrderedMaps m.db m.rank}
variable {s s' : State C T} {c : C} {it : Option ℕ} {p n i : ℕ}

/-! ## Objects -/

/-- The object in a row. -/
def objOf (m : MultiIndex C T κ ρ) (e : Entry ℕ Row) : T :=
  match m.unpack e.val.data with
  | .ok obj => obj
  | .error _ => default

/-- The object that an entry of an index leads to. -/
def objAt (m : MultiIndex C T κ ρ) (d : OrderedMaps m.db m.rank) (c : C)
    (x : Entry (IndexKey ρ) (Reference κ)) : T :=
  match lookup (d.rows c) x.key.primary with
  | some e => objOf m e
  | none => default

/-- An iterator is at an item with the object, or at the end. -/
def ItemAt (s : State C T) : Option ℕ → Option T → Prop
  | none, none => True
  | some p, some obj => s.Live p ∧ (s.items p).obj = obj
  | _, _ => False

lemma Holds.objOf {e : Entry ℕ Row} {obj : T} (h : Holds m e obj) : objOf m e = obj := by
  unfold Contracts.objOf
  rw [h.1]

lemma IsEntryOf.objAt {x : Entry (IndexKey ρ) (Reference κ)} {e : Entry ℕ Row} {obj : T}
    (he : e ∈ d.rows c) (hholds : Holds m e obj) (hkey : e.key = x.key.primary) :
    objAt m d c x = obj := by
  unfold Contracts.objAt
  rw [← hkey, lookup_eq_some (d.rows_sorted c) he]
  exact hholds.objOf

lemma PointsTo.itemAt {o : Option (Entry ℕ Row)} (h : PointsTo m d s it o) :
    ItemAt s it (o.map (objOf m)) := by
  cases it <;> cases o
  · trivial
  · exact h
  · exact h
  · obtain ⟨-, hlive, hholds⟩ := h
    exact ⟨hlive, hholds.objOf.symm⟩

lemma PointsToEntry.itemAt {o : Option (Entry (IndexKey ρ) (Reference κ))} (h : Inv m d s)
    (hp : PointsToEntry m d i s it o) : ItemAt s it (o.map (objAt m d s.chain)) := by
  cases it <;> cases o
  · trivial
  · exact hp
  · exact hp
  · obtain ⟨-, hlive, hof⟩ := hp
    obtain ⟨e, he, hholds, -⟩ := h.cache.row hlive
    exact ⟨hlive, (IsEntryOf.objAt he hholds (hholds.2.symm.trans hof.primary.symm)).symm⟩

/-! ## The cursor of the table -/

/-- `*it`. -/
def readObj (p : ℕ) : Fn C T T := Item.obj <$> readItem p

omit [Inhabited T] in
lemma readObj_spec (h : s.Live p) : Returns (readObj p) s fun obj s' =>
    s' = s ∧ obj = (s.items p).obj := by
  unfold readObj Returns
  rw [meets_map, meets_readItem h]
  exact ⟨rfl, rfl⟩

/-- The state has a good cache over one database. -/
def Within (m : MultiIndex C T κ ρ) (d : OrderedMaps m.db m.rank) (c : C) (s : State C T) : Prop :=
  Inv m d s ∧ s.chain = c

omit [Inhabited T] in
lemma Steady.within (h : Steady m d s s') (hs : s.chain = c) : Within m d c s' :=
  ⟨h.inv, h.chain.trans hs⟩

omit [Inhabited T] in
/-- A lookup leaves every iterator of the table where it was. -/
lemma Steady.pointsTo (h : Steady m d s s') :
    ∀ it o, PointsTo m d s it o → PointsTo m d s' it o := fun _ _ => h.toKeeps.pointsTo

omit [Inhabited T] in
/-- A lookup leaves every iterator of an index where it was. -/
lemma Steady.pointsToEntry (h : Steady m d s s') :
    ∀ it o, PointsToEntry m d i s it o → PointsToEntry m d i s' it o :=
  fun _ _ => h.toKeeps.pointsToEntry

omit [Inhabited T] in
/-- Two iterators at one row are one. -/
lemma PointsTo.unique {it' : Option ℕ} {o : Option (Entry ℕ Row)} (h : Inv m d s)
    (hp : PointsTo m d s it o) (hp' : PointsTo m d s it' o) : it = it' := by
  cases o with
  | none =>
    cases it with
    | some p => exact hp.elim
    | none =>
      cases it' with
      | some p => exact hp'.elim
      | none => rfl
  | some e =>
    cases it with
    | none => exact hp.elim
    | some p =>
      cases it' with
      | none => exact hp'.elim
      | some p' =>
        obtain ⟨-, hlive, hholds⟩ := hp
        obtain ⟨-, hlive', hholds'⟩ := hp'
        rw [h.cache.live_unique hlive hlive' (congrArg m.primaryKey (hholds.eq hholds'))]

omit [Inhabited T] in
/-- Two iterators at one entry are one. -/
lemma PointsToEntry.unique {it' : Option ℕ} {o : Option (Entry (IndexKey ρ) (Reference κ))}
    (h : Inv m d s) (hp : PointsToEntry m d i s it o) (hp' : PointsToEntry m d i s it' o) :
    it = it' := by
  cases o with
  | none =>
    cases it with
    | some p => exact hp.elim
    | none =>
      cases it' with
      | some p => exact hp'.elim
      | none => rfl
  | some x =>
    cases it with
    | none => exact hp.elim
    | some p =>
      cases it' with
      | none => exact hp'.elim
      | some p' =>
        obtain ⟨-, hlive, hof⟩ := hp
        obtain ⟨-, hlive', hof'⟩ := hp'
        rw [h.cache.live_unique hlive hlive' (hof.primary.symm.trans hof'.primary)]

/-- The iterators of the table move along its rows. -/
lemma primaryTable (m : MultiIndex C T κ ρ) (d : OrderedMaps m.db m.rank) (c : C) :
    Cursor.TableLaws m.next m.previous readObj (d.rows c) (objOf m) (Within m d c)
      (PointsTo m d) where
  sorted := d.rows_sorted c
  at_end _ := trivial
  at_end_inv s o hp := by
    cases o with
    | none => rfl
    | some e => exact hp.elim
  some_inv s p o hp := by
    obtain ⟨e, he, -⟩ := hp.some_inv
    exact ⟨e, he⟩
  unique s it it' o hs hp hp' := hp.unique hs.1 hp'
  key s p e e' hp hp' := hp.2.2.2.symm.trans hp'.2.2.2
  next s p e hs hp := by
    obtain ⟨hs, rfl⟩ := hs
    refine (next_spec hs hp).mono ?_
    rintro it s' ⟨hsteady, hp'⟩
    exact ⟨hsteady.within rfl, hsteady.pointsTo, hp'⟩
  previous s it o e hs hp hfront := by
    obtain ⟨hs, rfl⟩ := hs
    have hspec := previous_spec hs hp
    rw [hfront] at hspec
    refine hspec.mono ?_ ?_
    · rintro it' s' ⟨hsteady, e', he', hp'⟩
      cases he'
      exact ⟨hsteady.within rfl, hsteady.pointsTo, hp'⟩
    · rintro _ s' ⟨-, hnone⟩
      cases hnone
  read s p e hs hp := by
    refine (readObj_spec hp.2.1).mono ?_
    rintro obj s' ⟨heq, rfl⟩
    exact ⟨heq, hp.2.2.objOf.symm⟩

/-- The iterators of an index move along its entries. -/
lemma indexTable (m : MultiIndex C T κ ρ) (d : OrderedMaps m.db m.rank) (c : C)
    (hi : i < m.indices) :
    Cursor.TableLaws (Index.next m i) (Index.previous m i) readObj (d.entries c i) (objAt m d c)
      (Within m d c) (PointsToEntry m d i) where
  sorted := d.entries_sorted c i
  at_end _ := trivial
  at_end_inv s o hp := by
    cases o with
    | none => rfl
    | some x => exact hp.elim
  some_inv s p o hp := by
    obtain ⟨x, hx, -⟩ := hp.some_inv
    exact ⟨x, hx⟩
  unique s it it' o hs hp hp' := hp.unique hs.1 hp'
  key s p x x' hp hp' := hp.2.2.1.trans hp'.2.2.1.symm
  next s p x hs hp := by
    obtain ⟨hs, rfl⟩ := hs
    refine (indexNext_spec hs hi hp).mono ?_
    rintro it s' ⟨hsteady, hp'⟩
    exact ⟨hsteady.within rfl, hsteady.pointsToEntry, hp'⟩
  previous s it o x hs hp hfront := by
    obtain ⟨hs, rfl⟩ := hs
    have hspec := indexPrevious_spec hs hi hp
    rw [hfront] at hspec
    refine hspec.mono ?_ ?_
    · rintro it' s' ⟨hsteady, x', hx', hp'⟩
      cases hx'
      exact ⟨hsteady.within rfl, hsteady.pointsToEntry, hp'⟩
    · rintro _ s' ⟨-, hnone⟩
      cases hnone
  read s p x hs hp := by
    obtain ⟨hs, rfl⟩ := hs
    have hitem := PointsToEntry.itemAt hs hp
    refine (readObj_spec hp.2.1).mono ?_
    rintro obj s' ⟨heq, rfl⟩
    exact ⟨heq, hitem.2⟩

/-! ## The objects in order -/

/-- The objects of the table, in the order of their primary keys. -/
def primaryOrder (m : MultiIndex C T κ ρ) (d : OrderedMaps m.db m.rank) (c : C) : List T :=
  (d.rows c).map (objOf m)

/-- The objects of the table, in the order of an index. -/
def indexOrder (m : MultiIndex C T κ ρ) (d : OrderedMaps m.db m.rank) (c : C) (i : ℕ) : List T :=
  (d.entries c i).map (objAt m d c)

lemma DbOk.holds_objOf (h : DbOk m d c) {e : Entry ℕ Row} (he : e ∈ d.rows c) :
    Holds m e (objOf m e) := by
  obtain ⟨obj, hholds, -⟩ := h.row he
  rwa [hholds.objOf]

lemma DbOk.objAt (h : DbOk m d c) (hi : i < m.indices) {x : Entry (IndexKey ρ) (Reference κ)}
    (hx : x ∈ d.entries c i) :
    InTable m d c (objAt m d c x) ∧ IsEntryOf m i (objAt m d c x) x := by
  obtain ⟨e, obj, he, hholds, hkey, hof, -⟩ := h.owned hi hx
  rw [IsEntryOf.objAt he hholds hkey]
  exact ⟨⟨e, he, hholds⟩, hof⟩

lemma primaryOrder_sorted (h : DbOk m d c) :
    (primaryOrder m d c).Pairwise fun a b => m.primaryKey a < m.primaryKey b := by
  unfold primaryOrder
  rw [List.pairwise_map]
  refine List.Pairwise.imp_of_mem (fun {e e'} he he' hlt => ?_) (d.rows_sorted c)
  rw [(h.holds_objOf he).2, (h.holds_objOf he').2]
  exact hlt

lemma mem_primaryOrder (h : DbOk m d c) {obj : T} :
    obj ∈ primaryOrder m d c ↔ InTable m d c obj := by
  unfold primaryOrder
  rw [List.mem_map]
  constructor
  · rintro ⟨e, he, rfl⟩
    exact ⟨e, he, h.holds_objOf he⟩
  · rintro ⟨e, he, hholds⟩
    exact ⟨e, he, hholds.objOf⟩

omit [Inhabited T] in
lemma IsEntryOf.rank {obj : T} {x : Entry (IndexKey ρ) (Reference κ)} (h : IsEntryOf m i obj x) :
    x.key.rank = m.rank i (m.extractSecondaryKey i obj) := by
  rw [h.1, IndexKey.rank_mk]

lemma indexOrder_sorted (h : DbOk m d c) (hi : i < m.indices) :
    (indexOrder m d c i).Pairwise fun a b =>
      m.rank i (m.extractSecondaryKey i a) < m.rank i (m.extractSecondaryKey i b) ∨
      m.rank i (m.extractSecondaryKey i a) = m.rank i (m.extractSecondaryKey i b) ∧
        m.primaryKey a < m.primaryKey b := by
  unfold indexOrder
  rw [List.pairwise_map]
  refine List.Pairwise.imp_of_mem (fun {x y} hx hy hlt => ?_) (d.entries_sorted c i)
  obtain ⟨-, hofx⟩ := h.objAt hi hx
  obtain ⟨-, hofy⟩ := h.objAt hi hy
  rw [hofx.1, hofy.1] at hlt
  exact (Prod.Lex.toLex_lt_toLex).mp hlt

lemma mem_indexOrder (h : DbOk m d c) (hi : i < m.indices) {obj : T} :
    obj ∈ indexOrder m d c i ↔ InTable m d c obj := by
  unfold indexOrder
  rw [List.mem_map]
  constructor
  · rintro ⟨x, hx, rfl⟩
    exact (h.objAt hi hx).1
  · rintro ⟨e, he, hholds⟩
    obtain ⟨x, hx, hof⟩ := h.indexed he hholds hi
    exact ⟨x, hx.mem, IsEntryOf.objAt he hholds hx.primary.symm⟩

/-! ## Iteration by primary key -/

/-- The table is the list: its bounds, its iterators and `erase`. -/
structure IteratesPrimary (m : MultiIndex C T κ ρ) (d : OrderedMaps m.db m.rank) (s : State C T)
    (objs : List T) : Prop where
  sorted : objs.Pairwise fun a b => m.primaryKey a < m.primaryKey b
  complete : ∀ obj, obj ∈ objs ↔ InTable m d s.chain obj
  lowerBound : ∀ k, Returns (m.lowerBound k) s fun it s' =>
    ItemAt s' it (objs.find? fun obj => k ≤ m.primaryKey obj)
  upperBound : ∀ k, Returns (m.upperBound k) s fun it s' =>
    ItemAt s' it (objs.find? fun obj => k < m.primaryKey obj)
  forward : ∀ fuel, objs.length < fuel →
    Returns (do Cursor.walkForward m.next readObj fuel (← m.cbegin)) s fun visited _ =>
      visited = some objs
  backward : ∀ fuel, objs.length < fuel →
    Returns (do Cursor.walkBackward m.previous readObj (← m.cbegin) fuel none) s fun visited _ =>
      visited = some objs.reverse
  nextPrevious : ∀ p, s.Live p →
    Returns (do m.previous (← m.next (some p))) s fun it _ => it = some p
  previousNext : ∀ it, LiveItr s.toCache it → Meets (do m.next (← m.previous it)) s
    (fun it' _ => it' = it) fun _ _ => objs.head? = it.map fun p => (s.items p).obj
  erase : ∀ p, s.Live p → Meets (m.erase (some p)) s
    (fun it s' =>
      (∀ obj, InTable m d s'.chain obj ↔
        InTable m d s.chain obj ∧ m.primaryKey obj ≠ m.primaryKey (s.items p).obj) ∧
      ∀ front behind, objs = front ++ (s.items p).obj :: behind → ItemAt s' it behind.head?)
    fun _ _ => m.code ≠ m.receiver

/-- A search among the objects is a search among the rows. -/
lemma find?_primaryOrder (h : DbOk m d c) (test : ℕ → Bool) :
    (primaryOrder m d c).find? (fun obj => test (m.primaryKey obj)) =
      ((d.rows c).find? fun e => test e.key).map (objOf m) := by
  unfold primaryOrder
  rw [List.find?_map]
  refine congrArg (Option.map (objOf m)) (List.find?_congr fun e he => ?_)
  rw [Function.comp_apply, (h.holds_objOf he).2]

omit [Inhabited T] in
lemma PointsTo.mem {o : Option (Entry ℕ Row)} (h : PointsTo m d s it o) :
    ∀ e, o = some e → e ∈ d.rows s.chain := by
  rintro e rfl
  cases it with
  | none => exact h.elim
  | some p => exact h.1

omit [Inhabited T] in
/-- Erasing takes the object with the key out of the table. -/
lemma Erased.inTable {pk : ℕ} (h : Erased m d pk s s') (obj : T) :
    InTable m d s'.chain obj ↔ InTable m d s.chain obj ∧ m.primaryKey obj ≠ pk := by
  constructor
  · rintro ⟨e, he, hholds⟩
    have hne : e.key ≠ pk := fun hkey => by cases (h.after.1 e).mp ⟨he, hkey⟩
    exact ⟨⟨e, ((h.changes.same e.key hne).row e rfl).mp he, hholds⟩, hholds.2 ▸ hne⟩
  · rintro ⟨⟨e, he, hholds⟩, hne⟩
    rw [hholds.2] at hne
    exact ⟨e, ((h.changes.same e.key hne).row e rfl).mpr he, hholds⟩

/-- What follows an object in the list is at the upper bound of its row. -/
lemma upperBound_primaryOrder (h : DbOk m d c) {e : Entry ℕ Row} {front behind : List T}
    (he : e ∈ d.rows c) (hsplit : primaryOrder m d c = front ++ objOf m e :: behind) :
    (OrderedTable.upperBound (d.rows c) e.key).map (objOf m) = behind.head? := by
  unfold primaryOrder at hsplit
  obtain ⟨es, es', hrows, -, hbehind⟩ := List.map_eq_append_iff.mp hsplit
  obtain ⟨e', es'', rfl, heq, rfl⟩ := List.map_eq_cons_iff.mp hbehind
  have he' : e' ∈ d.rows c := hrows ▸ List.mem_append_right _ List.mem_cons_self
  have hkey : e'.key = e.key := by
    rw [← (h.holds_objOf he').2, ← (h.holds_objOf he).2, heq]
  have hsorted := d.rows_sorted c
  rw [hrows] at hsorted
  rw [hrows, ← hkey, upperBound_split hsorted, List.head?_map]

omit [Inhabited T] in
/-- `begin()` is at the first row. -/
lemma Inv.cbegin_at (h : Inv m d s) : Returns m.cbegin s fun it s' =>
    Within m d s.chain s' ∧ Cursor.At (d.rows s.chain) (PointsTo m d) s' it 0 := by
  refine (cbegin_spec h).mono ?_
  intro it s' hspec
  obtain ⟨hsteady, hpoints⟩ := hspec
  rw [List.head?_eq_getElem?] at hpoints
  exact ⟨hsteady.within rfl, Nat.zero_le _, hpoints⟩

/-- `erase` takes an object out of the list and moves on to the object behind it. -/
lemma Inv.erase_primaryOrder (h : Inv m d s) (hp : s.Live p) : Meets (m.erase (some p)) s
    (fun it s' =>
      (∀ obj, InTable m d s'.chain obj ↔
        InTable m d s.chain obj ∧ m.primaryKey obj ≠ m.primaryKey (s.items p).obj) ∧
      ∀ front behind, primaryOrder m d s.chain = front ++ (s.items p).obj :: behind →
        ItemAt s' it behind.head?)
    fun _ _ => m.code ≠ m.receiver := by
  obtain ⟨e, he, hholds, -⟩ := h.cache.row hp
  refine (erase_spec h ⟨he, hp, hholds⟩).mono ?_ fun _ _ herror => herror.2
  intro it s' hspec
  obtain ⟨herased, -, hpoints⟩ := hspec
  constructor
  · rw [hholds.2]
    exact herased.inTable
  · intro front behind hsplit
    rw [← hholds.objOf] at hsplit
    rw [← upperBound_primaryOrder h.db he hsplit]
    exact hpoints.itemAt

/-- In a good state the table is the list of its objects in the order of their keys. -/
theorem Inv.iteratesPrimary (h : Inv m d s) :
    IteratesPrimary m d s (primaryOrder m d s.chain) := by
  have htable := primaryTable m d s.chain
  have hcursor := htable.laws
  have hwithin : Within m d s.chain s := ⟨h, rfl⟩
  have hfirst : ∀ p e, PointsTo m d s (some p) (some e) → (s.items p).obj = objOf m e :=
    fun p e hp => hp.2.2.objOf.symm
  constructor
  case sorted => exact primaryOrder_sorted h.db
  case complete => exact fun obj => mem_primaryOrder h.db
  case lowerBound =>
    intro k
    refine (lowerBound_spec h k).mono ?_
    rintro it s' ⟨-, hpoints⟩
    rw [find?_primaryOrder h.db fun key => k ≤ key]
    exact hpoints.itemAt
  case upperBound =>
    intro k
    refine (upperBound_spec h k).mono ?_
    rintro it s' ⟨-, hpoints⟩
    rw [find?_primaryOrder h.db fun key => k < key]
    exact hpoints.itemAt
  case forward => exact fun fuel hfuel => hcursor.visits h.cbegin_at hfuel
  case backward => exact fun fuel hfuel => hcursor.visitsBackward h.cbegin_at hfuel
  case nextPrevious =>
    intro p hp
    obtain ⟨o, hpoints⟩ := LiveItr.pointsTo h fun q hq => Option.some.inj hq ▸ hp
    obtain ⟨n, hat⟩ := Cursor.exists_at hpoints hpoints.mem
    exact (hcursor.next_previous hwithin hat).mono fun _ _ hq => hq.2
  case previousNext =>
    intro it hl
    obtain ⟨o, hpoints⟩ := LiveItr.pointsTo h hl
    obtain ⟨n, hat⟩ := Cursor.exists_at hpoints hpoints.mem
    cases n with
    | succ n => exact ((hcursor.previous_next hwithin hat).mono fun _ _ hq => hq.2).meets
    | zero =>
      -- nothing is in front of the first row, so `--` aborts there
      rw [meets_bind]
      refine (previous_spec h hat.2).mono ?_ fun _ _ _ => htable.first hat hfirst
      rintro it' s' ⟨-, e, hfront, -⟩
      rw [inFront_first (d.rows_sorted s.chain)] at hfront
      cases hfront
  case erase => exact fun p hp => h.erase_primaryOrder hp

/-- In every run the table is the list of its objects in the order of their primary keys. -/
theorem run_iteratesPrimary [DecidableEq κ] {start : State C T} {past : List (State C T)}
    (hstart : Starts m d start) (hrun : Run m start (s :: past)) :
    ∃ objs, IteratesPrimary m d s objs :=
  ⟨_, (hrun.inv hstart).iteratesPrimary⟩

/-- The table with the keys 3, 1 and 8 is a list of objects. -/
theorem threeRows_iteratesPrimary :
    ∃ objs, IteratesPrimary pairs pairs.maps threeRows objs :=
  run_iteratesPrimary pairs_starts threeRows_run

example : primaryOrder pairs pairs.maps threeRows.chain = [(1, 9), (3, 4), (8, 2)] := by
  decide +kernel

/-! ## Iteration by a secondary key -/

/-- An index is the list: its bounds and lookups, its iterators and `erase`. -/
structure IteratesIndex (m : MultiIndex C T κ ρ) (d : OrderedMaps m.db m.rank) (s : State C T)
    (i : ℕ) (objs : List T) : Prop where
  sorted : objs.Pairwise fun a b =>
    m.rank i (m.extractSecondaryKey i a) < m.rank i (m.extractSecondaryKey i b) ∨
    m.rank i (m.extractSecondaryKey i a) = m.rank i (m.extractSecondaryKey i b) ∧
      m.primaryKey a < m.primaryKey b
  complete : ∀ obj, obj ∈ objs ↔ InTable m d s.chain obj
  lowerBound : ∀ k, Returns (Index.lowerBound m i k) s fun it s' =>
    ItemAt s' it (objs.find? fun obj => m.rank i k ≤ m.rank i (m.extractSecondaryKey i obj))
  upperBound : ∀ k, Returns (Index.upperBound m i k) s fun it s' =>
    ItemAt s' it (objs.find? fun obj => m.rank i k < m.rank i (m.extractSecondaryKey i obj))
  find : ∀ k, Returns (Index.find m i k) s fun it s' =>
    ItemAt s' it (objs.find? fun obj => m.equal i k (m.extractSecondaryKey i obj))
  requireFind : ∀ k errorMsg, Meets (Index.requireFind m i k errorMsg) s
    (fun it s' => ∃ obj, objs.find? (fun obj => m.equal i k (m.extractSecondaryKey i obj)) =
      some obj ∧ ItemAt s' it (some obj))
    fun message _ => message = errorMsg ∧
      ∀ obj ∈ objs, m.equal i k (m.extractSecondaryKey i obj) = false
  getObj : ∀ k errorMsg, Meets (Index.getObj m i k errorMsg) s
    (fun p s' => ∃ obj, objs.find? (fun obj => m.equal i k (m.extractSecondaryKey i obj)) =
      some obj ∧ ItemAt s' (some p) (some obj))
    fun message _ => message = errorMsg ∧
      ∀ obj ∈ objs, m.equal i k (m.extractSecondaryKey i obj) = false
  forward : ∀ fuel, objs.length < fuel →
    Returns (do Cursor.walkForward (Index.next m i) readObj fuel (← Index.cbegin m i)) s
      fun visited _ => visited = some objs
  backward : ∀ fuel, objs.length < fuel →
    Returns (do Cursor.walkBackward (Index.previous m i) readObj (← Index.cbegin m i) fuel none) s
      fun visited _ => visited = some objs.reverse
  nextPrevious : ∀ p, s.Live p →
    Returns (do Index.previous m i (← Index.next m i (some p))) s fun it _ => it = some p
  previousNext : ∀ it, LiveItr s.toCache it →
    Meets (do Index.next m i (← Index.previous m i it)) s (fun it' _ => it' = it)
      fun _ _ => objs.head? = it.map fun p => (s.items p).obj
  erase : ∀ p, s.Live p → Meets (Index.erase m i (some p)) s
    (fun it s' =>
      (∀ obj, InTable m d s'.chain obj ↔
        InTable m d s.chain obj ∧ m.primaryKey obj ≠ m.primaryKey (s.items p).obj) ∧
      ∀ front behind, objs = front ++ (s.items p).obj :: behind → ItemAt s' it behind.head?)
    fun _ _ => m.code ≠ m.receiver

/-- A search among the objects is a search among the entries. -/
lemma find?_indexOrder (h : DbOk m d c) (hi : i < m.indices) (test : ρ → Bool) :
    (indexOrder m d c i).find? (fun obj => test (m.rank i (m.extractSecondaryKey i obj))) =
      ((d.entries c i).find? fun x => test x.key.rank).map (objAt m d c) := by
  unfold indexOrder
  rw [List.find?_map]
  refine congrArg (Option.map (objAt m d c)) (List.find?_congr fun x hx => ?_)
  rw [Function.comp_apply, (h.objAt hi hx).2.rank]

omit [Inhabited T] in
/-- The first entry with a key is the first of its rank. -/
lemma firstWith_eq (secondary : κ) : firstWith d c i secondary =
    (d.entries c i).find? fun x => m.rank i secondary = x.key.rank := by
  refine find?_le_filter_eq (List.Pairwise.imp (fun {x y} hlt => ?_) (d.entries_sorted c i)) _
  rcases Prod.Lex.lt_iff.mp hlt with hrank | ⟨hrank, -⟩
  · exact hrank.le
  · exact hrank.le

/-- The first object with a key is that of the first entry. -/
lemma find?_equal (h : DbOk m d c) (hi : i < m.indices) (secondary : κ) :
    (indexOrder m d c i).find? (fun obj => m.equal i secondary (m.extractSecondaryKey i obj)) =
      (firstWith d c i secondary).map (objAt m d c) := by
  rw [firstWith_eq, ← find?_indexOrder h hi fun r => decide (m.rank i secondary = r)]
  refine List.find?_congr fun obj _ => ?_
  rw [Bool.eq_iff_iff, m.equal_iff, decide_eq_true_iff]

omit [Inhabited T] in
lemma PointsToEntry.mem {o : Option (Entry (IndexKey ρ) (Reference κ))}
    (h : PointsToEntry m d i s it o) : ∀ x, o = some x → x ∈ d.entries s.chain i := by
  rintro x rfl
  cases it with
  | none => exact h.elim
  | some p => exact h.1

/-- What follows an object in the list is at the upper bound of its entry. -/
lemma upperBound_indexOrder (h : DbOk m d c) (hi : i < m.indices)
    {x : Entry (IndexKey ρ) (Reference κ)} {obj : T} {front behind : List T}
    (hx : x ∈ d.entries c i) (hof : IsEntryOf m i obj x)
    (hsplit : indexOrder m d c i = front ++ obj :: behind) :
    (OrderedTable.upperBound (d.entries c i) x.key).map (objAt m d c) = behind.head? := by
  unfold indexOrder at hsplit
  obtain ⟨xs, xs', hentries, -, hbehind⟩ := List.map_eq_append_iff.mp hsplit
  obtain ⟨x', xs'', rfl, heq, rfl⟩ := List.map_eq_cons_iff.mp hbehind
  have hx' : x' ∈ d.entries c i := hentries ▸ List.mem_append_right _ List.mem_cons_self
  have hof' : IsEntryOf m i obj x' := heq ▸ (h.objAt hi hx').2
  have hsorted := d.entries_sorted c i
  rw [hentries] at hsorted
  rw [hentries, IsEntryOf.eq hx hx' hof hof', upperBound_split hsorted, List.head?_map]

/-- What an iterator behind a change is at, from what it was at before. -/
lemma PointsToEntry.itemAt_erased {pk : ℕ} {o : Option (Entry (IndexKey ρ) (Reference κ))}
    (herased : Erased m d pk s s') (hp : PointsToEntry m d i s' it o) :
    ItemAt s' it (o.map (objAt m d s.chain)) := by
  cases it <;> cases o
  · trivial
  · exact hp
  · exact hp
  · rename_i q x
    obtain ⟨hx, hlive, hof⟩ := hp
    obtain ⟨e, he, hholds, -⟩ := herased.inv.cache.row hlive
    -- the object was in the table before the change, under the same key
    have hin := (herased.inTable (s'.items q).obj).mp ⟨e, he, hholds⟩
    obtain ⟨e', he', hholds'⟩ := hin.1
    exact ⟨hlive, (IsEntryOf.objAt he' hholds' (hholds'.2.symm.trans hof.primary.symm)).symm⟩

/-- What an iterator behind a lookup is at. -/
lemma Steady.itemAt {o : Option (Entry (IndexKey ρ) (Reference κ))} (h : Steady m d s s')
    (hp : PointsToEntry m d i s' it o) : ItemAt s' it (o.map (objAt m d s.chain)) := by
  rw [← h.chain]
  exact hp.itemAt h.inv

/-- No object has a key that no entry has. -/
lemma not_equal_of_firstWith (h : DbOk m d c) (hi : i < m.indices) {secondary : κ}
    (hfirst : firstWith d c i secondary = none) :
    ∀ obj ∈ indexOrder m d c i, m.equal i secondary (m.extractSecondaryKey i obj) = false := by
  intro obj hobj
  have hfind := find?_equal h hi secondary
  rw [hfirst, Option.map_none, List.find?_eq_none] at hfind
  exact Bool.eq_false_iff.mpr (hfind obj hobj)

omit [Inhabited T] in
/-- The `begin()` of an index is at its first entry. -/
lemma Inv.indexCbegin_at (h : Inv m d s) (hi : i < m.indices) :
    Returns (Index.cbegin m i) s fun it s' =>
      Within m d s.chain s' ∧ Cursor.At (d.entries s.chain i) (PointsToEntry m d i) s' it 0 := by
  refine (indexCbegin_spec h hi).mono ?_
  intro it s' hspec
  obtain ⟨hsteady, hpoints⟩ := hspec
  rw [List.head?_eq_getElem?] at hpoints
  exact ⟨hsteady.within rfl, Nat.zero_le _, hpoints⟩

/-- `erase` by an index takes an object out and moves on to the object behind it in the index. -/
lemma Inv.erase_indexOrder (h : Inv m d s) (hi : i < m.indices) (hp : s.Live p) :
    Meets (Index.erase m i (some p)) s
      (fun it s' =>
        (∀ obj, InTable m d s'.chain obj ↔
          InTable m d s.chain obj ∧ m.primaryKey obj ≠ m.primaryKey (s.items p).obj) ∧
        ∀ front behind, indexOrder m d s.chain i = front ++ (s.items p).obj :: behind →
          ItemAt s' it behind.head?)
      fun _ _ => m.code ≠ m.receiver := by
  obtain ⟨e, he, hholds, -⟩ := h.cache.row hp
  obtain ⟨x, hx, hof⟩ := h.db.indexed he hholds hi
  refine (indexErase_spec h hi ⟨hx.mem, hp, hof⟩).mono ?_ fun _ _ herror => herror.2
  intro it s' hspec
  obtain ⟨herased, -, hpoints⟩ := hspec
  constructor
  · rw [← hof.primary]
    exact herased.inTable
  · intro front behind hsplit
    rw [← upperBound_indexOrder h.db hi hx.mem hof hsplit]
    exact hpoints.itemAt_erased herased

/-- In a good state an index is the list of the table's objects in the order of its keys. -/
theorem Inv.iteratesIndex (h : Inv m d s) (hi : i < m.indices) :
    IteratesIndex m d s i (indexOrder m d s.chain i) := by
  have htable := indexTable m d s.chain hi
  have hcursor := htable.laws
  have hwithin : Within m d s.chain s := ⟨h, rfl⟩
  have hfirst : ∀ p x, PointsToEntry m d i s (some p) (some x) →
      (s.items p).obj = objAt m d s.chain x := fun p x hp => (PointsToEntry.itemAt h hp).2
  constructor
  case sorted => exact indexOrder_sorted h.db hi
  case complete => exact fun obj => mem_indexOrder h.db hi
  case lowerBound =>
    intro k
    refine (indexLowerBound_spec h hi k).mono ?_
    rintro it s' ⟨hsteady, hpoints⟩
    rw [find?_indexOrder h.db hi fun r => decide (m.rank i k ≤ r)]
    exact hsteady.itemAt hpoints
  case upperBound =>
    intro k
    refine (indexUpperBound_spec h hi k).mono ?_
    rintro it s' ⟨hsteady, hpoints⟩
    rw [find?_indexOrder h.db hi fun r => decide (m.rank i k < r)]
    exact hsteady.itemAt hpoints
  case find =>
    intro k
    refine (indexFind_spec h hi k).mono ?_
    rintro it s' ⟨hsteady, hpoints⟩
    rw [find?_equal h.db hi]
    exact hsteady.itemAt hpoints
  case requireFind =>
    intro k errorMsg
    refine (indexRequireFind_spec h hi k errorMsg).mono ?_ ?_
    · rintro it s' ⟨hsteady, x, hfirst, hpoints⟩
      refine ⟨objAt m d s.chain x, ?_, hsteady.itemAt hpoints⟩
      rw [find?_equal h.db hi, hfirst, Option.map_some]
    · rintro message s' ⟨-, hmessage, hfirst⟩
      exact ⟨hmessage, not_equal_of_firstWith h.db hi hfirst⟩
  case getObj =>
    intro k errorMsg
    refine (indexGetObj_spec h hi k errorMsg).mono ?_ ?_
    · rintro p s' ⟨hsteady, x, hfirst, hpoints⟩
      refine ⟨objAt m d s.chain x, ?_, hsteady.itemAt hpoints⟩
      rw [find?_equal h.db hi, hfirst, Option.map_some]
    · rintro message s' ⟨-, hmessage, hfirst⟩
      exact ⟨hmessage, not_equal_of_firstWith h.db hi hfirst⟩
  case forward => exact fun fuel hfuel => hcursor.visits (h.indexCbegin_at hi) hfuel
  case backward => exact fun fuel hfuel => hcursor.visitsBackward (h.indexCbegin_at hi) hfuel
  case nextPrevious =>
    intro p hp
    obtain ⟨o, hpoints⟩ := LiveItr.pointsToEntry h hi fun q hq => Option.some.inj hq ▸ hp
    obtain ⟨n, hat⟩ := Cursor.exists_at hpoints hpoints.mem
    exact (hcursor.next_previous hwithin hat).mono fun _ _ hq => hq.2
  case previousNext =>
    intro it hl
    obtain ⟨o, hpoints⟩ := LiveItr.pointsToEntry h hi hl
    obtain ⟨n, hat⟩ := Cursor.exists_at hpoints hpoints.mem
    cases n with
    | succ n => exact ((hcursor.previous_next hwithin hat).mono fun _ _ hq => hq.2).meets
    | zero =>
      -- nothing is in front of the first entry, so `--` aborts there
      rw [meets_bind]
      refine (indexPrevious_spec h hi hat.2).mono ?_ fun _ _ _ => htable.first hat hfirst
      rintro it' s' ⟨-, x, hfront, -⟩
      rw [inFront_first (d.entries_sorted s.chain i)] at hfront
      cases hfront
  case erase => exact fun p hp => h.erase_indexOrder hi hp

/-- In every run an index is the list of the table's objects in the order of its keys. -/
theorem run_iteratesIndex [DecidableEq κ] {start : State C T} {past : List (State C T)}
    (hstart : Starts m d start) (hrun : Run m start (s :: past)) (hi : i < m.indices) :
    ∃ objs, IteratesIndex m d s i objs :=
  ⟨_, (hrun.inv hstart).iteratesIndex hi⟩

/-- The index of the table with the keys 3, 1 and 8 is a list of objects. -/
theorem threeRows_iteratesIndex :
    ∃ objs, IteratesIndex pairs pairs.maps threeRows 0 objs :=
  run_iteratesIndex pairs_starts threeRows_run (by decide)

example : indexOrder pairs pairs.maps threeRows.chain 0 = [(8, 2), (3, 4), (1, 9)] := by
  decide +kernel

end UosioCdt.Contracts
