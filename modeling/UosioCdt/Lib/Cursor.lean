import UosioCdt.Lib.Aborting

/-!
# Walking a list with a cursor

A cursor is an iterator that a program moves forward and backward over a list of values, with `none`
at the end. What a step does to the place of the cursor gives what a walk visits.
-/

namespace Cursor

open Aborting

variable {ε σ ι β : Type}

/-! ## Walks -/

section Walks

variable (next previous : Option ι → EStateM ε σ (Option ι)) (read : ι → EStateM ε σ β)

/-- `for( it = …; it != end(); ++it ) visit( *it )`, for at most so many rounds. -/
def walkForward : ℕ → Option ι → EStateM ε σ (Option (List β))
  | 0, _ => pure none
  | _ + 1, none => pure (some [])
  | n + 1, some p => do
    let value ← read p
    let it ← next (some p)
    let rest ← walkForward n it
    return rest.map (value :: ·)

variable [DecidableEq ι]

/-- `for( it = …; it != rend(); ++it ) visit( *it )` with reverse iterators, for at most so many
rounds. A reverse iterator is a place, and stands for the value in front of it. -/
def walkBackward (rend : Option ι) : ℕ → Option ι → EStateM ε σ (Option (List β))
  | 0, _ => pure none
  | n + 1, base =>
    if base = rend then pure (some [])
    else do
      match ← previous base with
      | none => return none
      | some p =>
        let value ← read p
        let base ← previous base
        let rest ← walkBackward rend n base
        return rest.map (value :: ·)

end Walks

/-! ## Laws -/

/-- The cursor's steps, and the places of iterators in a list. -/
structure Laws (next previous : Option ι → EStateM ε σ (Option ι)) (read : ι → EStateM ε σ β)
    (values : List β) (Within : σ → Prop) (At : σ → Option ι → ℕ → Prop) : Prop where
  at_end : ∀ s, Within s → At s none values.length
  at_le : ∀ s it n, At s it n → n ≤ values.length
  at_unique : ∀ s it it' n, Within s → At s it n → At s it' n → it = it'
  at_inj : ∀ s it n n', Within s → At s it n → At s it n' → n = n'
  next : ∀ s p n, Within s → At s (some p) n → Returns (next (some p)) s fun it s' =>
    Within s' ∧ (∀ it n, At s it n → At s' it n) ∧ At s' it (n + 1)
  previous : ∀ s it n, Within s → At s it (n + 1) → Returns (previous it) s fun it' s' =>
    Within s' ∧ (∀ it n, At s it n → At s' it n) ∧ At s' it' n
  read : ∀ s p n, Within s → At s (some p) n → Returns (read p) s fun value s' =>
    s' = s ∧ values[n]? = some value

variable {next previous : Option ι → EStateM ε σ (Option ι)} {read : ι → EStateM ε σ β}
variable {values : List β} {Within : σ → Prop} {At : σ → Option ι → ℕ → Prop}
variable {s : σ} {it : Option ι} {p : ι} {n fuel : ℕ}

lemma Laws.eq_none_iff (h : Laws next previous read values Within At) (hs : Within s)
    (hat : At s it n) : it = none ↔ n = values.length := by
  constructor
  · rintro rfl
    exact h.at_inj s none n _ hs hat (h.at_end s hs)
  · rintro rfl
    exact h.at_unique s it none _ hs hat (h.at_end s hs)

/-- In front of the end there is an item. -/
lemma Laws.eq_some (h : Laws next previous read values Within At) (hs : Within s)
    (hat : At s it n) (hn : n < values.length) : ∃ p, it = some p := by
  cases it with
  | none =>
    have := (h.eq_none_iff hs hat).mp rfl
    omega
  | some p => exact ⟨p, rfl⟩

/-- A forward walk visits what is from its place on, in order. -/
theorem Laws.walkForward (h : Laws next previous read values Within At) (hs : Within s)
    (hat : At s it n) (hfuel : values.length < fuel + n) :
    Returns (walkForward next read fuel it) s fun visited s' =>
      Within s' ∧ (∀ it n, At s it n → At s' it n) ∧ visited = some (values.drop n) := by
  induction fuel generalizing s it n with
  | zero =>
    have := h.at_le s it n hat
    omega
  | succ fuel ih =>
    cases it with
    | none =>
      have hend := (h.eq_none_iff hs hat).mp rfl
      refine ⟨hs, fun _ _ h => h, ?_⟩
      rw [hend, List.drop_length]
    | some p =>
      unfold Cursor.walkForward
      refine (h.read s p n hs hat).bind ?_
      rintro value s' ⟨heq, hvalue⟩
      subst s'
      refine (h.next s p n hs hat).bind ?_
      rintro it s' ⟨hs', hkeep, hat'⟩
      refine (ih hs' hat' (by omega)).bind ?_
      rintro rest s'' ⟨hs'', hkeep', rfl⟩
      refine ⟨hs'', fun it n hit => hkeep' it n (hkeep it n hit), ?_⟩
      obtain ⟨hlt, heq⟩ := List.getElem?_eq_some_iff.mp hvalue
      rw [Option.map_some, ← heq, List.getElem_cons_drop]

/-- A backward walk visits what is in front of its place, in reverse order. -/
theorem Laws.walkBackward [DecidableEq ι] (h : Laws next previous read values Within At)
    (hs : Within s) {rend : Option ι} (hrend : At s rend 0) (hat : At s it n) (hfuel : n < fuel) :
    Returns (walkBackward previous read rend fuel it) s fun visited s' =>
      Within s' ∧ (∀ it n, At s it n → At s' it n) ∧ visited = some (values.take n).reverse := by
  induction fuel generalizing s it n with
  | zero => omega
  | succ fuel ih =>
    unfold Cursor.walkBackward
    by_cases hend : it = rend
    · rw [if_pos hend]
      have hzero : n = 0 := h.at_inj s it n 0 hs hat (hend ▸ hrend)
      refine ⟨hs, fun _ _ h => h, ?_⟩
      rw [hzero]
      rfl
    · rw [if_neg hend]
      cases n with
      | zero => exact absurd (h.at_unique s it rend 0 hs hat hrend) hend
      | succ n =>
        have hlt : n < values.length := h.at_le s it (n + 1) hat
        refine (h.previous s it n hs hat).bind ?_
        rintro it' s' ⟨hs', hkeep, hat'⟩
        obtain ⟨p, rfl⟩ := h.eq_some hs' hat' hlt
        refine (h.read s' p n hs' hat').bind ?_
        rintro value s'' ⟨heq, hvalue⟩
        subst s''
        refine (h.previous s' it n hs' (hkeep it _ hat)).bind ?_
        rintro base s'' ⟨hs'', hkeep', hbase⟩
        refine (ih hs'' (hkeep' rend 0 (hkeep rend 0 hrend)) hbase (by omega)).bind ?_
        rintro rest s3 ⟨hs3, hkeep'', rfl⟩
        refine ⟨hs3, fun it n hit => hkeep'' it n (hkeep' it n (hkeep it n hit)), ?_⟩
        rw [Option.map_some, List.take_add_one, hvalue, Option.toList_some, List.reverse_append]
        rfl

/-! ## Whole lists -/

section Whole

variable {begin' : EStateM ε σ (Option ι)}

/-- A forward walk from the first place visits everything. -/
theorem Laws.visits (h : Laws next previous read values Within At)
    (hbegin : Returns begin' s fun it s' => Within s' ∧ At s' it 0) (hfuel : values.length < fuel) :
    Returns (do Cursor.walkForward next read fuel (← begin')) s fun visited _ =>
      visited = some values := by
  refine hbegin.bind ?_
  rintro it s' ⟨hs', hat⟩
  refine (h.walkForward hs' hat hfuel).mono ?_
  rintro visited s'' ⟨-, -, rfl⟩
  rw [List.drop_zero]

/-- A backward walk from the end to the first place visits everything. -/
theorem Laws.visitsBackward [DecidableEq ι] (h : Laws next previous read values Within At)
    (hbegin : Returns begin' s fun it s' => Within s' ∧ At s' it 0) (hfuel : values.length < fuel) :
    Returns (do Cursor.walkBackward previous read (← begin') fuel none) s fun visited _ =>
      visited = some values.reverse := by
  refine hbegin.bind ?_
  rintro it s' ⟨hs', hat⟩
  refine (h.walkBackward hs' hat (h.at_end s' hs') hfuel).mono ?_
  rintro visited s'' ⟨-, -, rfl⟩
  rw [List.take_length]

end Whole

/-! ## There and back -/

theorem Laws.next_previous (h : Laws next previous read values Within At) (hs : Within s)
    (hat : At s (some p) n) :
    Returns (do previous (← next (some p))) s fun it s' => Within s' ∧ it = some p := by
  refine (h.next s p n hs hat).bind ?_
  rintro it s' ⟨hs', hkeep, hat'⟩
  refine (h.previous s' it n hs' hat').mono ?_
  rintro it' s'' ⟨hs'', hkeep', hat''⟩
  exact ⟨hs'', h.at_unique s'' it' (some p) n hs'' hat'' (hkeep' _ n (hkeep _ n hat))⟩

theorem Laws.previous_next (h : Laws next previous read values Within At) (hs : Within s)
    (hat : At s it (n + 1)) :
    Returns (do next (← previous it)) s fun it' s' => Within s' ∧ it' = it := by
  refine (h.previous s it n hs hat).bind ?_
  rintro it' s' ⟨hs', hkeep, hat'⟩
  obtain ⟨p, rfl⟩ := h.eq_some hs' hat' (h.at_le s it (n + 1) hat)
  refine (h.next s' p n hs' hat').mono ?_
  rintro it'' s'' ⟨hs'', hkeep', hat''⟩
  exact ⟨hs'', h.at_unique s'' it'' it (n + 1) hs'' hat'' (hkeep' it _ (hkeep it _ hat))⟩

end Cursor
