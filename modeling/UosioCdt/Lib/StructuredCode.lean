import Mathlib.Data.List.Basic
import Mathlib.Tactic.Basic

/-!
# Structured code — IF / ELSE / END brackets in a flat opcode sequence

A function body is a flat sequence of tokens in which IF opens a block, ELSE starts its second
half and END closes it; one more END closes the function.

* `scan` checks the brackets the way a validator does, with one flag for every open IF;
* `Block` is the nested form, `flatten` the sequence it stands for, and `parseBody` the way back;
* `parseBody_flatten`: the sequence of a block with one END parses to the block;
* `Block.run` is the meaning of a block, given the meaning of its plain operations.
-/

namespace StructuredCode

variable {α σ : Type}

/-- A token of a function body: a bracket or a plain operation. -/
inductive Tok (α : Type) where
  | op (a : α)
  | if_
  | else_
  | end_
deriving DecidableEq, Repr

/-! ## The bracket scan -/

/-- Where the scan stands: inside the open IFs (innermost first, `true` for one that has had its
ELSE), or behind the END that closed the function. -/
inductive Scan where
  | inside (frames : List Bool)
  | closed
deriving DecidableEq, Repr

/-- One token. An ELSE needs an open IF that has had none, and nothing may follow the last END. -/
def Scan.step : Scan → Tok α → Option Scan
  | .inside fs, .op _ => some (.inside fs)
  | .inside fs, .if_ => some (.inside (false :: fs))
  | .inside (false :: fs), .else_ => some (.inside (true :: fs))
  | .inside (_ :: fs), .end_ => some (.inside fs)
  | .inside [], .end_ => some .closed
  | _, _ => none

/-- The scan of a sequence; `none` at the first token out of place. -/
def scan : Scan → List (Tok α) → Option Scan
  | s, [] => some s
  | s, t :: ts => (s.step t).bind fun s' => scan s' ts

/-- A function body: every bracket matches and the last token is the END of the function. -/
def IsBody (ts : List (Tok α)) : Prop := scan (.inside []) ts = some .closed

instance (ts : List (Tok α)) : Decidable (IsBody ts) :=
  inferInstanceAs (Decidable (scan (.inside []) ts = some .closed))

lemma scan_append (s : Scan) (xs ys : List (Tok α)) :
    scan s (xs ++ ys) = (scan s xs).bind fun s' => scan s' ys := by
  induction xs generalizing s with
  | nil => rfl
  | cons x xs ih =>
    simp only [List.cons_append, scan]
    cases s.step x with
    | none => rfl
    | some s' => exact ih s'

@[simp] lemma scan_op (fs : List Bool) (a : α) (ts : List (Tok α)) :
    scan (.inside fs) (.op a :: ts) = scan (.inside fs) ts := by
  cases fs <;> rfl

@[simp] lemma scan_if (fs : List Bool) (ts : List (Tok α)) :
    scan (.inside fs) (.if_ :: ts) = scan (.inside (false :: fs)) ts := by
  cases fs <;> rfl

@[simp] lemma scan_else (fs : List Bool) (ts : List (Tok α)) :
    scan (.inside (false :: fs)) (.else_ :: ts) = scan (.inside (true :: fs)) ts := rfl

@[simp] lemma scan_end (f : Bool) (fs : List Bool) (ts : List (Tok α)) :
    scan (.inside (f :: fs)) (.end_ :: ts) = scan (.inside fs) ts := by
  cases f <;> rfl

/-- `n` ENDs close `n` open IFs, whatever their flags. -/
lemma scan_replicate_end (ds fs : List Bool) :
    scan (.inside (ds ++ fs)) (List.replicate ds.length (.end_ : Tok α)) = some (.inside fs) := by
  induction ds with
  | nil => rfl
  | cons d ds ih =>
    rw [List.length_cons, List.replicate_succ, List.cons_append, scan_end]
    exact ih

/-- The END bracket. -/
def Tok.isEnd : Tok α → Bool
  | .end_ => true
  | _ => false

/-- Neither IF nor ELSE. -/
def Tok.isClosing : Tok α → Bool
  | .op _ | .end_ => true
  | _ => false

/-- A tail without IF and ELSE closes the function exactly when it has one END for every open IF
in front of its last one. -/
lemma scan_closing_iff {fs : List Bool} {ts : List (Tok α)} (h : ∀ t ∈ ts, t.isClosing = true) :
    scan (.inside fs) (ts ++ [.end_]) = some .closed ↔ ts.countP Tok.isEnd = fs.length := by
  induction ts generalizing fs with
  | nil => cases fs <;> simp [scan, Scan.step]
  | cons t ts ih =>
    have hts : ∀ t ∈ ts, t.isClosing = true := fun t ht => h t (List.mem_cons_of_mem _ ht)
    cases t with
    | op a => simpa [List.countP_cons, Tok.isEnd] using ih hts
    | if_ => simpa [Tok.isClosing] using h .if_ List.mem_cons_self
    | else_ => simpa [Tok.isClosing] using h .else_ List.mem_cons_self
    | end_ =>
      cases fs with
      | nil => cases ts <;> simp [scan, Scan.step, Tok.isEnd]
      | cons f fs => simpa [List.countP_cons, Tok.isEnd] using ih hts

/-! ## Nested blocks -/

/-- Code with its brackets resolved. -/
inductive Block (α : Type) where
  | nil
  | op (a : α) (rest : Block α)
  | ifThen (t rest : Block α)
  | ifElse (t e rest : Block α)
deriving DecidableEq, Repr

namespace Block

/-- The token sequence of a block. -/
def flatten : Block α → List (Tok α)
  | nil => []
  | op a rest => .op a :: rest.flatten
  | ifThen t rest => .if_ :: (t.flatten ++ .end_ :: rest.flatten)
  | ifElse t e rest =>
    .if_ :: (t.flatten ++ .else_ :: (e.flatten ++ .end_ :: rest.flatten))

/-- Two blocks one after the other. -/
def append : Block α → Block α → Block α
  | nil, b => b
  | op a rest, b => op a (rest.append b)
  | ifThen t rest, b => ifThen t (rest.append b)
  | ifElse t e rest, b => ifElse t e (rest.append b)

@[simp] lemma flatten_append (b c : Block α) : (b.append c).flatten = b.flatten ++ c.flatten := by
  induction b with
  | nil => rfl
  | op a rest ih => simp [append, flatten, ih]
  | ifThen t rest _ ih => simp [append, flatten, ih]
  | ifElse t e rest _ _ ih => simp [append, flatten, ih]

end Block

/-! ## Parsing -/

/-- Reads a block up to the ELSE or END that is not its own; returns that token and the rest. -/
def parse : ℕ → List (Tok α) → Option (Block α × Tok α × List (Tok α))
  | 0, _ => none
  | _ + 1, [] => none
  | n + 1, .op a :: ts => (parse n ts).map fun p => (.op a p.1, p.2)
  | _ + 1, .else_ :: ts => some (.nil, .else_, ts)
  | _ + 1, .end_ :: ts => some (.nil, .end_, ts)
  | n + 1, .if_ :: ts =>
    (parse n ts).bind fun p =>
      match p.2.1 with
      | .end_ => (parse n p.2.2).map fun q => (.ifThen p.1 q.1, q.2)
      | .else_ =>
        (parse n p.2.2).bind fun e =>
          match e.2.1 with
          | .end_ => (parse n e.2.2).map fun q => (.ifElse p.1 e.1 q.1, q.2)
          | _ => none
      | _ => none

/-- The block of a function body, when the sequence is one. -/
def parseBody (ts : List (Tok α)) : Option (Block α) :=
  match parse (ts.length + 1) ts with
  | some (b, .end_, []) => some b
  | _ => none

/-- `parse` reads back the block in front of an ELSE or END, given one unit of fuel a token. -/
lemma parse_flatten {t : Tok α} (ht : t = .else_ ∨ t = .end_) (b : Block α) (r : List (Tok α))
    {n : ℕ} (hn : b.flatten.length < n) : parse n (b.flatten ++ t :: r) = some (b, t, r) := by
  induction b generalizing t r n with
  | nil =>
    obtain ⟨m, rfl⟩ : ∃ m, n = m + 1 := ⟨n - 1, by omega⟩
    rcases ht with rfl | rfl <;> rfl
  | op a rest ih =>
    obtain ⟨m, rfl⟩ : ∃ m, n = m + 1 := ⟨n - 1, by omega⟩
    simp only [Block.flatten, List.length_cons] at hn
    simp [Block.flatten, parse, ih ht r (n := m) (by omega)]
  | ifThen b rest ihb ih =>
    obtain ⟨m, rfl⟩ : ∃ m, n = m + 1 := ⟨n - 1, by omega⟩
    simp only [Block.flatten, List.length_cons, List.length_append] at hn
    simp [Block.flatten, parse, ihb (.inr rfl) _ (n := m) (by omega), ih ht r (n := m) (by omega)]
  | ifElse b e rest ihb ihe ih =>
    obtain ⟨m, rfl⟩ : ∃ m, n = m + 1 := ⟨n - 1, by omega⟩
    simp only [Block.flatten, List.length_cons, List.length_append] at hn
    simp [Block.flatten, parse, ihb (.inl rfl) _ (n := m) (by omega),
      ihe (.inr rfl) _ (n := m) (by omega), ih ht r (n := m) (by omega)]

/-- A body parses to its block. -/
theorem parseBody_flatten (b : Block α) : parseBody (b.flatten ++ [.end_]) = some b := by
  rw [parseBody, parse_flatten (.inr rfl) b [] (by rw [List.length_append]; omega)]

/-! ## Execution -/

/-- How running a block ends: normally, by a trap, or by an operation that does not fit the state
(which validated code never does). -/
inductive Outcome (σ : Type) where
  | done (s : σ)
  | trap (s : σ)
  | stuck

/-- Continue after a normal end. -/
def Outcome.andThen : Outcome σ → (σ → Outcome σ) → Outcome σ
  | .done s, k => k s
  | .trap s, _ => .trap s
  | .stuck, _ => .stuck

/-- The meaning of a block: `exec` runs a plain operation, `test` takes the condition of an IF. -/
def Block.run (exec : α → σ → Outcome σ) (test : σ → Option (Bool × σ)) :
    Block α → σ → Outcome σ
  | .nil, s => .done s
  | .op a rest, s => (exec a s).andThen (rest.run exec test)
  | .ifThen t rest, s =>
    match test s with
    | some (true, s') => (t.run exec test s').andThen (rest.run exec test)
    | some (false, s') => rest.run exec test s'
    | none => .stuck
  | .ifElse t e rest, s =>
    match test s with
    | some (true, s') => (t.run exec test s').andThen (rest.run exec test)
    | some (false, s') => (e.run exec test s').andThen (rest.run exec test)
    | none => .stuck

section run

variable (exec : α → σ → Outcome σ) (test : σ → Option (Bool × σ))

lemma Outcome.andThen_assoc (o : Outcome σ) (k l : σ → Outcome σ) :
    (o.andThen k).andThen l = o.andThen fun s => (k s).andThen l := by
  cases o <;> rfl

/-- Running two blocks one after the other. -/
theorem Block.run_append (b c : Block α) (s : σ) :
    (b.append c).run exec test s = (b.run exec test s).andThen (c.run exec test) := by
  induction b generalizing s with
  | nil => rfl
  | op a rest ih =>
    have hrest : (rest.append c).run exec test
        = fun s' => (rest.run exec test s').andThen (c.run exec test) := funext ih
    simp only [append, run, Outcome.andThen_assoc, hrest]
  | ifThen t rest _ ih =>
    have hrest : (rest.append c).run exec test
        = fun s' => (rest.run exec test s').andThen (c.run exec test) := funext ih
    simp only [append, run, hrest]
    split
    · rw [Outcome.andThen_assoc]
    · rfl
    · rfl
  | ifElse t e rest _ _ ih =>
    have hrest : (rest.append c).run exec test
        = fun s' => (rest.run exec test s').andThen (c.run exec test) := funext ih
    simp only [append, run, hrest]
    split
    · rw [Outcome.andThen_assoc]
    · rw [Outcome.andThen_assoc]
    · rfl

end run

end StructuredCode
