import Mathlib.Data.List.Infix
import Mathlib.Data.Sum.Basic
import Mathlib.Tactic.Lemma

/-!
# Terms written without their brackets

A term is written as the words of its head, its arguments one after the other, and its marks. The
text says neither where a head nor where a term ends, so different terms may have one text. They have
different texts when the difference shows at the first place where the terms differ.
-/

namespace PrefixTerms

inductive Term (η μ : Type) where
  | node (head : η) (args : List (Term η μ)) (marks : List μ)

/-- A term in pieces, with its brackets. -/
inductive Piece (ν μ : Type) where
  | opening (words : List ν)
  | closing
  | mark (m : μ)
deriving DecidableEq

namespace Piece

variable {ν μ : Type}

/-- What is written of a piece. -/
def text : Piece ν μ → List (ν ⊕ μ)
  | opening words => words.map .inl
  | closing => []
  | mark m => [.inr m]

def textAll (ps : List (Piece ν μ)) : List (ν ⊕ μ) := ps.flatMap text

/-- What is written of the first piece of which something is written. -/
def nextText : List (Piece ν μ) → List (ν ⊕ μ)
  | [] => []
  | p :: ps => if p.text = [] then nextText ps else p.text

/-- One text ends, or neither begins with the other. -/
def Distinguishes (v w : List (ν ⊕ μ)) : Prop :=
  v = [] ∧ w ≠ [] ∨ w = [] ∧ v ≠ [] ∨ ¬ v <+: w ∧ ¬ w <+: v

instance [DecidableEq ν] [DecidableEq μ] (v w : List (ν ⊕ μ)) : Decidable (Distinguishes v w) :=
  inferInstanceAs (Decidable (_ ∨ _))

/-- Behind a common beginning, the next texts are told apart. -/
def Apart (xs ys : List (Piece ν μ)) : Prop :=
  ∃ ps as bs, xs = ps ++ as ∧ ys = ps ++ bs ∧ Distinguishes (nextText as) (nextText bs)

variable {ps xs ys : List (Piece ν μ)}

lemma nextText_begins (ps : List (Piece ν μ)) : nextText ps <+: textAll ps := by
  induction ps with
  | nil => exact List.prefix_rfl
  | cons p ps ih =>
    unfold nextText
    split
    · rename_i hempty
      have htext : textAll (p :: ps) = textAll ps := by
        simp [textAll, hempty]
      rw [htext]
      exact ih
    · exact List.prefix_append _ _

lemma textAll_eq_nil (h : nextText ps = []) : textAll ps = [] := by
  induction ps with
  | nil => rfl
  | cons p ps ih =>
    unfold nextText at h
    split at h
    · rename_i hempty
      simpa [textAll, hempty] using ih h
    · contradiction

/-- Pieces that are apart have different texts. -/
theorem Apart.textAll_ne (h : Apart xs ys) : textAll xs ≠ textAll ys := by
  obtain ⟨ps, as, bs, rfl, rfl, hnext⟩ := h
  intro heq
  -- behind the common beginning the texts would be the same
  have hrest : textAll as = textAll bs := by
    unfold textAll at heq ⊢
    rw [List.flatMap_append, List.flatMap_append] at heq
    exact List.append_cancel_left heq
  rcases hnext with ⟨ha, hb⟩ | ⟨hb, ha⟩ | ⟨hab, hba⟩
  · have hempty := nextText_begins bs
    rw [← hrest, textAll_eq_nil ha, List.prefix_nil] at hempty
    exact hb hempty
  · have hempty := nextText_begins as
    rw [hrest, textAll_eq_nil hb, List.prefix_nil] at hempty
    exact ha hempty
  · have hbegin := nextText_begins as
    rw [hrest] at hbegin
    rcases List.prefix_or_prefix_of_prefix hbegin (nextText_begins bs) with hp | hp
    · exact hab hp
    · exact hba hp

end Piece

namespace Term

variable {η μ ν : Type}

def addMark (m : μ) : Term η μ → Term η μ
  | node h args ms => node h args (ms ++ [m])

mutual

def write (code : η → List ν) : Term η μ → List (ν ⊕ μ)
  | node h args ms => (code h).map .inl ++ (writeAll code args ++ ms.map .inr)

def writeAll (code : η → List ν) : List (Term η μ) → List (ν ⊕ μ)
  | [] => []
  | t :: ts => write code t ++ writeAll code ts

end

mutual

def heads : Term η μ → List η
  | node h args _ => h :: headsAll args

def headsAll : List (Term η μ) → List η
  | [] => []
  | t :: ts => heads t ++ headsAll ts

end

mutual

def pieces (code : η → List ν) : Term η μ → List (Piece ν μ)
  | node h args ms => .opening (code h) :: (piecesAll code args ++ .closing :: ms.map .mark)

def piecesAll (code : η → List ν) : List (Term η μ) → List (Piece ν μ)
  | [] => []
  | t :: ts => pieces code t ++ piecesAll code ts

end

/-- The terms differ first where the difference shows in the text. -/
def Apart (code : η → List ν) (t u : Term η μ) : Prop := Piece.Apart (t.pieces code) (u.pieces code)

/-- Induction on a term, with the statement for every argument. -/
@[elab_as_elim]
theorem inductionOn {P : Term η μ → Prop} (node : ∀ h args ms, (∀ t ∈ args, P t) → P (.node h args ms)) :
    ∀ t, P t
  | .node h args ms => node h args ms fun t _ => inductionOn node t

variable {code : η → List ν} {t u : Term η μ} {ts : List (Term η μ)}

lemma write_addMark {m : μ} : (t.addMark m).write code = t.write code ++ [.inr m] := by
  cases t
  simp [addMark, write]

lemma heads_addMark {m : μ} : (t.addMark m).heads = t.heads := by
  cases t
  rfl

lemma mem_headsAll {h : η} : h ∈ headsAll ts ↔ ∃ t ∈ ts, h ∈ t.heads := by
  induction ts with
  | nil => simp [headsAll]
  | cons t ts ih => simp [headsAll, ih]

lemma mem_writeAll {x : ν ⊕ μ} : x ∈ writeAll code ts ↔ ∃ t ∈ ts, x ∈ t.write code := by
  induction ts with
  | nil => simp [writeAll]
  | cons t ts ih => simp [writeAll, ih]

/-- The words of a text are those of the heads. -/
lemma mem_heads_of_mem_write {w : ν} (t : Term η μ) (hw : .inl w ∈ t.write code) :
    ∃ h ∈ t.heads, w ∈ code h := by
  induction t using inductionOn with
  | node h args ms ih =>
    unfold write at hw
    unfold heads
    rcases List.mem_append.mp hw with hw | hw
    · obtain ⟨v, hv, heq⟩ := List.mem_map.mp hw
      cases heq
      exact ⟨h, List.mem_cons_self, hv⟩
    · rcases List.mem_append.mp hw with hw | hw
      · obtain ⟨t, ht, hwt⟩ := mem_writeAll.mp hw
        obtain ⟨g, hg, hwg⟩ := ih t ht hwt
        exact ⟨g, List.mem_cons_of_mem h (mem_headsAll.mpr ⟨t, ht, hg⟩), hwg⟩
      · obtain ⟨m, -, heq⟩ := List.mem_map.mp hw
        cases heq

/-- What is written of a term is what is written of its pieces. -/
lemma textAll_pieces (t : Term η μ) : Piece.textAll (t.pieces code) = t.write code := by
  induction t using inductionOn with
  | node h args ms ih =>
    have hargs : Piece.textAll (piecesAll code args) = writeAll code args := by
      induction args with
      | nil => rfl
      | cons t ts ih' =>
        have htail := ih' fun u hu => ih u (List.mem_cons_of_mem t hu)
        have hhead := ih t List.mem_cons_self
        unfold Piece.textAll at hhead htail ⊢
        unfold piecesAll writeAll
        rw [List.flatMap_append, hhead, htail]
    have hmarks : Piece.textAll (ms.map Piece.mark) = ms.map (.inr : μ → ν ⊕ μ) := by
      induction ms with
      | nil => rfl
      | cons m ms ihm => exact congrArg (_ :: ·) ihm
    unfold Piece.textAll at hargs hmarks ⊢
    unfold pieces write
    rw [List.flatMap_cons, List.flatMap_append, List.flatMap_cons, hargs, hmarks]
    rfl

/-- Terms that are apart have different texts. -/
theorem Apart.write_ne (h : Apart code t u) : t.write code ≠ u.write code := by
  rw [← textAll_pieces t, ← textAll_pieces u]
  exact Piece.Apart.textAll_ne h

end Term

end PrefixTerms
