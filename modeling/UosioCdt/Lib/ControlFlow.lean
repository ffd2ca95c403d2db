import Mathlib.Data.List.Basic
import Mathlib.Tactic.Lemma

/-!
# Control-flow graphs

A block runs its events and is left, by returning or by going on with another block. A path runs
from a block to a return. When events are put in front of the entry block and behind the blocks that
return, every path has them at its ends and is otherwise a path of the first graph.
-/

namespace ControlFlow

variable {β ε : Type}

structure Graph (β ε : Type) where
  body : β → List ε
  /-- The event of leaving the block. -/
  leave : β → ε
  returns : β → Prop
  next : β → β → Prop
  not_next : ∀ b, returns b → ∀ c, ¬ next b c

/-- A path from a block to a return: the events before the return, and the return. -/
inductive Path (G : Graph β ε) : β → List ε → ε → Prop where
  | ret {b : β} : G.returns b → Path G b (G.body b) (G.leave b)
  | jump {b c : β} {es : List ε} {r : ε} :
    G.next b c → Path G c es r → Path G b (G.body b ++ G.leave b :: es) r

/-- `G'` is `G` with `before` in front of the entry and `behind` in front of each return. -/
structure Brackets (G G' : Graph β ε) (entry : β) (before behind : List ε) : Prop where
  leave_eq : ∀ b, G'.leave b = G.leave b
  returns_iff : ∀ b, G'.returns b ↔ G.returns b
  next_iff : ∀ b c, G'.next b c ↔ G.next b c
  body_eq : ∀ b, ∃ pre post, G'.body b = pre ++ G.body b ++ post ∧
    (b = entry → pre = before) ∧ (b ≠ entry → pre = []) ∧
    (G.returns b → post = behind) ∧ (¬ G.returns b → post = [])
  /-- No block goes back to the entry. -/
  not_next_entry : ∀ b, ¬ G.next b entry

variable {G G' : Graph β ε} {entry b : β} {before behind es es' : List ε} {r : ε}

/-- The body of a block that does not return. -/
lemma Brackets.body_of_next (h : Brackets G G' entry before behind) {c : β} (hnext : G.next b c) :
    ∃ pre, G'.body b = pre ++ G.body b ∧ (b = entry → pre = before) ∧ (b ≠ entry → pre = []) := by
  obtain ⟨pre, post, hbody, hentry, hother, -, hpost⟩ := h.body_eq b
  have hnil : post = [] := hpost fun hret => G.not_next b hret c hnext
  rw [hnil, List.append_nil] at hbody
  exact ⟨pre, hbody, hentry, hother⟩

/-- The events are put around each path. -/
lemma Brackets.path (h : Brackets G G' entry before behind) (hpath : Path G b es r) :
    ∃ pre, (b = entry → pre = before) ∧ (b ≠ entry → pre = []) ∧
      Path G' b (pre ++ es ++ behind) r := by
  induction hpath with
  | @ret b hret =>
    obtain ⟨pre, post, hbody, hentry, hother, hpost, -⟩ := h.body_eq b
    have hpath' := Path.ret ((h.returns_iff b).mpr hret)
    rw [hbody, hpost hret, h.leave_eq] at hpath'
    exact ⟨pre, hentry, hother, hpath'⟩
  | @jump b c es r hnext _ ih =>
    obtain ⟨pre, hbody, hentry, hother⟩ := h.body_of_next hnext
    obtain ⟨pre', -, hother', hrest⟩ := ih
    have hnil : pre' = [] := hother' fun heq => h.not_next_entry b (heq ▸ hnext)
    rw [hnil, List.nil_append] at hrest
    have hpath' := Path.jump ((h.next_iff b c).mpr hnext) hrest
    rw [hbody, h.leave_eq] at hpath'
    refine ⟨pre, hentry, hother, ?_⟩
    simpa using hpath'

/-- There are no other paths. -/
lemma Brackets.exists_path (h : Brackets G G' entry before behind) (hpath : Path G' b es' r) :
    ∃ pre es, (b = entry → pre = before) ∧ (b ≠ entry → pre = []) ∧
      es' = pre ++ es ++ behind ∧ Path G b es r := by
  induction hpath with
  | @ret b hret =>
    have hret' := (h.returns_iff b).mp hret
    obtain ⟨pre, post, hbody, hentry, hother, hpost, -⟩ := h.body_eq b
    refine ⟨pre, G.body b, hentry, hother, by rw [hbody, hpost hret'], ?_⟩
    rw [h.leave_eq]
    exact .ret hret'
  | @jump b c es' r hnext _ ih =>
    have hnext' := (h.next_iff b c).mp hnext
    obtain ⟨pre, hbody, hentry, hother⟩ := h.body_of_next hnext'
    obtain ⟨pre', es, -, hother', rfl, hrest⟩ := ih
    have hnil : pre' = [] := hother' fun heq => h.not_next_entry b (heq ▸ hnext')
    refine ⟨pre, G.body b ++ G.leave b :: es, hentry, hother, ?_, .jump hnext' hrest⟩
    rw [hnil, hbody, h.leave_eq]
    simp

/-- The paths from the entry are those of the first graph between the events. -/
theorem Brackets.path_iff (h : Brackets G G' entry before behind) :
    Path G' entry es' r ↔ ∃ es, es' = before ++ es ++ behind ∧ Path G entry es r := by
  constructor
  · intro hpath
    obtain ⟨pre, es, hentry, -, hes, hpath⟩ := h.exists_path hpath
    exact ⟨es, hentry rfl ▸ hes, hpath⟩
  · rintro ⟨es, rfl, hpath⟩
    obtain ⟨pre, hentry, -, hpath'⟩ := h.path hpath
    exact hentry rfl ▸ hpath'

end ControlFlow
