import UosioCdt.Lib.Cursor
import UosioCdt.Lib.OrderedTable

/-!
# Cursors over an ordered table

An iterator points to an entry of a table, or is at its end. When it moves to the next and to the
previous entry in the order of the keys, it is a cursor over what the entries stand for.
-/

namespace Cursor

open Aborting OrderedTable

variable {ε σ ι κ β α : Type} [LinearOrder κ]

/-- What the steps of an iterator do to the entry that it points to. -/
structure TableLaws (next previous : Option ι → EStateM ε σ (Option ι)) (read : ι → EStateM ε σ α)
    (t : Table κ β) (value : Entry κ β → α) (Within : σ → Prop)
    (Points : σ → Option ι → Option (Entry κ β) → Prop) : Prop where
  sorted : Sorted t
  at_end : ∀ s, Points s none none
  at_end_inv : ∀ s o, Points s none o → o = none
  some_inv : ∀ s p o, Points s (some p) o → ∃ e, o = some e
  unique : ∀ s it it' o, Within s → Points s it o → Points s it' o → it = it'
  key : ∀ s p e e', Points s (some p) (some e) → Points s (some p) (some e') → e.key = e'.key
  next : ∀ s p e, Within s → Points s (some p) (some e) → Returns (next (some p)) s fun it s' =>
    Within s' ∧ (∀ it o, Points s it o → Points s' it o) ∧ Points s' it (upperBound t e.key)
  previous : ∀ s it o e, Within s → Points s it o → inFront t o = some e →
    Returns (previous it) s fun it' s' =>
      Within s' ∧ (∀ it o, Points s it o → Points s' it o) ∧ Points s' it' (some e)
  read : ∀ s p e, Within s → Points s (some p) (some e) → Returns (read p) s fun v s' =>
    s' = s ∧ v = value e

/-- The iterator points to the entry at a place of the table. -/
def At (t : Table κ β) (Points : σ → Option ι → Option (Entry κ β) → Prop) (s : σ) (it : Option ι)
    (n : ℕ) : Prop :=
  n ≤ t.length ∧ Points s it t[n]?

variable {next previous : Option ι → EStateM ε σ (Option ι)} {read : ι → EStateM ε σ α}
variable {t : Table κ β} {value : Entry κ β → α} {Within : σ → Prop}
variable {Points : σ → Option ι → Option (Entry κ β) → Prop}
variable {s : σ} {it : Option ι} {o : Option (Entry κ β)} {n n' : ℕ}

omit [LinearOrder κ] in
/-- An iterator at an entry, or at the end, is at a place. -/
lemma exists_at (hp : Points s it o) (ho : ∀ e, o = some e → e ∈ t) : ∃ n, At t Points s it n := by
  cases o with
  | none =>
    refine ⟨t.length, le_rfl, ?_⟩
    rw [List.getElem?_eq_none le_rfl]
    exact hp
  | some e =>
    obtain ⟨n, hn, heq⟩ := List.mem_iff_getElem.mp (ho e rfl)
    refine ⟨n, hn.le, ?_⟩
    rw [List.getElem?_eq_getElem hn, heq]
    exact hp

/-- An iterator is at one place only. -/
lemma TableLaws.at_inj (h : TableLaws next previous read t value Within Points)
    (hat : At t Points s it n) (hat' : At t Points s it n') : n = n' := by
  obtain ⟨hn, hp⟩ := hat
  obtain ⟨hn', hp'⟩ := hat'
  cases it with
  | none =>
    have hend := List.getElem?_eq_none_iff.mp (h.at_end_inv s _ hp)
    have hend' := List.getElem?_eq_none_iff.mp (h.at_end_inv s _ hp')
    omega
  | some p =>
    obtain ⟨e, he⟩ := h.some_inv s p _ hp
    obtain ⟨e', he'⟩ := h.some_inv s p _ hp'
    rw [he] at hp
    rw [he'] at hp'
    exact h.sorted.at_inj he he' (h.key s p e e' hp hp')

/-- An iterator at the first place is at the first value. -/
lemma TableLaws.first (h : TableLaws next previous read t value Within Points)
    (hat : At t Points s it 0) {f : ι → α} (hf : ∀ p e, Points s (some p) (some e) → f p = value e) :
    (t.map value).head? = it.map f := by
  obtain ⟨-, hp⟩ := hat
  rw [List.head?_map, List.head?_eq_getElem?]
  cases it with
  | none => rw [h.at_end_inv s _ hp, Option.map_none, Option.map_none]
  | some p =>
    obtain ⟨e, he⟩ := h.some_inv s p _ hp
    rw [he] at hp
    rw [he, Option.map_some, Option.map_some, hf p e hp]

/-- Iterators of a table are a cursor over the values of its entries. -/
theorem TableLaws.laws (h : TableLaws next previous read t value Within Points) :
    Laws next previous read (t.map value) Within (At t Points) where
  at_end s _ := by
    rw [List.length_map]
    refine ⟨le_rfl, ?_⟩
    rw [List.getElem?_eq_none le_rfl]
    exact h.at_end s
  at_le s it n hat := by
    rw [List.length_map]
    exact hat.1
  at_unique s it it' n hs hat hat' := h.unique s it it' _ hs hat.2 hat'.2
  at_inj s it n n' _ hat hat' := h.at_inj hat hat'
  next s p n hs hat := by
    obtain ⟨hn, hp⟩ := hat
    obtain ⟨e, he⟩ := h.some_inv s p _ hp
    rw [he] at hp
    refine (h.next s p e hs hp).mono ?_
    rintro it s' ⟨hs', hkeep, hp'⟩
    -- the upper bound of the entry's key is the entry at the next place
    rw [upperBound_at h.sorted he] at hp'
    exact ⟨hs', fun it n hit => ⟨hit.1, hkeep it _ hit.2⟩, (List.getElem?_eq_some_iff.mp he).1, hp'⟩
  previous s it n hs hat := by
    obtain ⟨hn, hp⟩ := hat
    have hfront := inFront_at h.sorted hn
    rw [List.getElem?_eq_getElem hn] at hfront
    refine (h.previous s it _ _ hs hp hfront).mono ?_
    rintro it' s' ⟨hs', hkeep, hp'⟩
    refine ⟨hs', fun it n hit => ⟨hit.1, hkeep it _ hit.2⟩, Nat.le_of_succ_le hn, ?_⟩
    rw [List.getElem?_eq_getElem hn]
    exact hp'
  read s p n hs hat := by
    obtain ⟨-, hp⟩ := hat
    obtain ⟨e, he⟩ := h.some_inv s p _ hp
    rw [he] at hp
    refine (h.read s p e hs hp).mono ?_
    rintro v s' ⟨heq, rfl⟩
    refine ⟨heq, ?_⟩
    rw [List.getElem?_map, he, Option.map_some]

end Cursor
