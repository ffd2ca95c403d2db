import Mathlib.Data.List.Basic
import UosioCdt.Core.RopeTextTheorems
import UosioCdt.Lib.Runs

/-!
# Programs with ropes

A program has variables for ropes, also for the temporaries of its expressions, and `c_str` may be
called in between. What it does to the texts of the variables is what it does to their ropes: a rope
that is appended to, also to itself, has the text of both, and the texts of the others stay.
-/

namespace UosioCdt.Core

open Aborting RopeHeap

variable {w : ℕ}

/-! ## Programs -/

inductive RopeStmt (w : ℕ) where
  | ofCStr (dst : ℕ) (s : CString w)
  | ofView (dst : ℕ) (s : StringView w)
  /-- Copy construction and assignment. -/
  | copy (dst src : ℕ)
  | appendLen (dst : ℕ) (s : StringView w)
  | append (dst src : ℕ)
  | addAssignCStr (dst : ℕ) (s : CString w)
  | addAssign (dst src : ℕ)
  | addCStr (dst lhs : ℕ) (s : CString w)
  | add (dst lhs rhs : ℕ)
  | cStr (src : ℕ) (fresh : ℕ → UInt8)

/-- The heap, and the ropes of the variables. -/
structure RopeStore (w : ℕ) where
  heap : RopeHeap w
  vars : ℕ → Option (Rope w)

namespace RopeStore

def empty : RopeStore w := ⟨[], fun _ => none⟩

def get (s : RopeStore w) (x : ℕ) : Except RopeFault (Rope w) :=
  match s.vars x with
  | some r => .ok r
  | none => .error .unbound

/-- The rope and the heap that a call returns. -/
def put (s : RopeStore w) (x : ℕ) (res : Rope w × RopeHeap w) : RopeStore w :=
  ⟨res.2, fun y => if y = x then some res.1 else s.vars y⟩

def exec (s : RopeStore w) : RopeStmt w → Except RopeFault (RopeStore w)
  | .ofCStr dst t => return s.put dst (← Rope.ofCStr s.heap t)
  | .ofView dst t => return s.put dst (Rope.ofView s.heap t)
  | .copy dst src => return s.put dst (← s.get src, s.heap)
  | .appendLen dst t => do
    let r ← s.get dst
    return s.put dst (← r.appendLen s.heap t.data t.size)
  | .append dst src => do
    let r ← s.get dst
    return s.put dst (← Rope.append s.heap r (← s.get src))
  | .addAssignCStr dst t => do
    let r ← s.get dst
    return s.put dst (← r.addAssignCStr s.heap t)
  | .addAssign dst src => do
    let r ← s.get dst
    return s.put dst (← Rope.addAssign s.heap r (← s.get src))
  | .addCStr dst lhs t => do
    let r ← s.get lhs
    return s.put dst (← r.addCStr s.heap t)
  | .add dst lhs rhs => do
    let r ← s.get lhs
    return s.put dst (← Rope.add s.heap r (← s.get rhs))
  | .cStr src fresh => do
    let r ← s.get src
    return { s with heap := (← r.cStr s.heap fresh).2 }

end RopeStore

/-- The texts of the variables. -/
abbrev RopeTexts := ℕ → Option (List UInt8)

namespace RopeTexts

def empty : RopeTexts := fun _ => none

def put (texts : RopeTexts) (x : ℕ) (text : List UInt8) : RopeTexts := fun y =>
  if y = x then some text else texts y

/-- What a statement does to the texts; `none` when a variable has none. -/
def apply (texts : RopeTexts) : RopeStmt w → Option RopeTexts
  | .ofCStr dst s => some (texts.put dst s.chars)
  | .ofView dst s => some (texts.put dst s.chars)
  | .copy dst src => return texts.put dst (← texts src)
  | .appendLen dst s => return texts.put dst ((← texts dst) ++ s.chars)
  | .append dst src => return texts.put dst ((← texts dst) ++ (← texts src))
  | .addAssignCStr dst s => return texts.put dst ((← texts dst) ++ s.chars)
  | .addAssign dst src => return texts.put dst ((← texts dst) ++ (← texts src))
  | .addCStr dst lhs s => return texts.put dst ((← texts lhs) ++ s.chars)
  | .add dst lhs rhs => return texts.put dst ((← texts lhs) ++ (← texts rhs))
  | .cStr src _ => do
    let _ ← texts src
    return texts

/-- An `int` counts the string to behind its NUL, and a `size_t` the text that `c_str` returns. -/
def Counts (texts : RopeTexts) : RopeStmt w → Prop
  | .ofCStr _ s => s.chars.length + 1 < 2 ^ 31
  | .addAssignCStr _ s => s.chars.length + 1 < 2 ^ 31
  | .addCStr _ _ s => s.chars.length + 1 < 2 ^ 31
  | .cStr src _ => ∀ text, texts src = some text → text.length + 1 < 2 ^ w
  | _ => True

end RopeTexts

/-! ## One statement -/

namespace RopeStore

/-- Each variable has a rope with its text, or neither. -/
def Refines (s : RopeStore w) (texts : RopeTexts) : Prop :=
  ∀ x, Option.Rel (fun r text => Rope.Holds s.heap r text) (s.vars x) (texts x)

lemma refines_empty : Refines (empty : RopeStore w) RopeTexts.empty := fun _ => .none

lemma Refines.get_some {s : RopeStore w} {texts : RopeTexts} {x : ℕ} {text : List UInt8}
    (h : s.Refines texts) (hx : texts x = some text) :
    ∃ r, s.vars x = some r ∧ s.get x = .ok r ∧ r.Holds s.heap text := by
  have hrel := h x
  rw [hx] at hrel
  cases hr : s.vars x with
  | none =>
    rw [hr] at hrel
    cases hrel
  | some r =>
    rw [hr] at hrel
    cases hrel with
    | some hholds => exact ⟨r, rfl, by rw [get, hr], hholds⟩

lemma Refines.text {s : RopeStore w} {texts : RopeTexts} {x : ℕ} {r : Rope w}
    (h : s.Refines texts) (hr : s.get x = .ok r) :
    ∃ text, texts x = some text ∧ r.Holds s.heap text := by
  have hrel := h x
  unfold get at hr
  split at hr
  · rename_i hvar
    cases hr
    rw [hvar] at hrel
    cases htext : texts x with
    | none =>
      rw [htext] at hrel
      cases hrel
    | some text =>
      rw [htext] at hrel
      cases hrel with
      | some hholds => exact ⟨text, rfl, hholds⟩
  · cases hr

/-- `c_str` leaves all texts. -/
lemma Refines.grow {s : RopeStore w} {texts : RopeTexts} {h' : RopeHeap w} (h : s.Refines texts)
    (hg : Grows s.heap h') : ({ s with heap := h' } : RopeStore w).Refines texts := by
  intro y
  have hrel := h y
  show Option.Rel _ (s.vars y) (texts y)
  revert hrel
  cases s.vars y <;> cases texts y <;> intro hrel <;> cases hrel
  · exact .none
  · exact .some (Rope.Holds.mono ‹_› hg)

/-- A call of one variable leaves the texts of the others. -/
lemma Refines.put {s : RopeStore w} {texts : RopeTexts} {x : ℕ} {r : Rope w} {h' : RopeHeap w}
    {text : List UInt8} (h : s.Refines texts) (hg : Grows s.heap h') (hr : r.Holds h' text) :
    (s.put x (r, h')).Refines (texts.put x text) := by
  intro y
  show Option.Rel _ (if y = x then _ else _) (if y = x then _ else _)
  by_cases hyx : y = x
  · rw [if_pos hyx, if_pos hyx]
    exact .some hr
  · rw [if_neg hyx, if_neg hyx]
    exact h.grow hg y

/-- The statements that append a rope to a copy or to the rope itself. -/
lemma exec_append {s : RopeStore w} {texts texts' : RopeTexts} {op : RopeStmt w} {dst lhs rhs : ℕ}
    (h : s.Refines texts)
    (htexts : (do return texts.put dst ((← texts lhs) ++ (← texts rhs))) = some texts')
    (hop : s.exec op = do
      let r ← s.get lhs
      return s.put dst (← Rope.append s.heap r (← s.get rhs))) :
    ∃ s', s.exec op = .ok s' ∧ s'.Refines texts' := by
  obtain ⟨text, htext, htexts⟩ := Option.bind_eq_some_iff.1 htexts
  obtain ⟨text', htext', htexts⟩ := Option.bind_eq_some_iff.1 htexts
  cases htexts
  obtain ⟨r, -, hget, hr⟩ := h.get_some htext
  obtain ⟨src, -, hget', hsrc⟩ := h.get_some htext'
  obtain ⟨r', h', hcall, hg, hr'⟩ := Rope.append_holds hr hsrc
  exact ⟨_, by simp only [hop, hget, hget', bind, Except.bind, hcall]; rfl, h.put hg hr'⟩

/-- The statements that append a C string. -/
lemma exec_addCStr {s : RopeStore w} {texts texts' : RopeTexts} {op : RopeStmt w} {dst lhs : ℕ}
    {t : CString w} (h : s.Refines texts)
    (htexts : (do return texts.put dst ((← texts lhs) ++ t.chars)) = some texts')
    (ht : t.chars.length + 1 < 2 ^ 31)
    (hop : s.exec op = do
      let r ← s.get lhs
      return s.put dst (← r.addAssignCStr s.heap t)) :
    ∃ s', s.exec op = .ok s' ∧ s'.Refines texts' := by
  obtain ⟨text, htext, htexts⟩ := Option.bind_eq_some_iff.1 htexts
  cases htexts
  obtain ⟨r, -, hget, hr⟩ := h.get_some htext
  obtain ⟨r', h', hcall, hg, hr'⟩ := Rope.addAssignCStr_holds hr ht
  exact ⟨_, by simp only [hop, hget, bind, Except.bind, hcall]; rfl, h.put hg hr'⟩

/-- A statement that counts right does to the ropes what it does to the texts. -/
theorem exec_refines {s : RopeStore w} {texts texts' : RopeTexts} {op : RopeStmt w}
    (h : s.Refines texts) (hop : texts.apply op = some texts') (hcounts : texts.Counts op) :
    ∃ s', s.exec op = .ok s' ∧ s'.Refines texts' := by
  cases op with
  | ofCStr dst t =>
    cases hop
    obtain ⟨r, h', hcall, hg, hr⟩ := Rope.ofCStr_holds (h := s.heap) hcounts
    exact ⟨_, by rw [exec, hcall]; rfl, h.put hg hr⟩
  | ofView dst t =>
    cases hop
    obtain ⟨hg, hr⟩ := Rope.ofView_holds s.heap t
    exact ⟨_, rfl, h.put hg hr⟩
  | copy dst src =>
    obtain ⟨text, htext, hop⟩ := Option.bind_eq_some_iff.1 hop
    cases hop
    obtain ⟨r, -, hget, hr⟩ := h.get_some htext
    exact ⟨_, by rw [exec, hget]; rfl, h.put (Grows.refl _) hr⟩
  | appendLen dst t =>
    obtain ⟨text, htext, hop⟩ := Option.bind_eq_some_iff.1 hop
    cases hop
    obtain ⟨r, -, hget, hr⟩ := h.get_some htext
    obtain ⟨r', h', hcall, hg, hr'⟩ := Rope.appendLen_holds hr t.inside
    exact ⟨_, by simp only [exec, hget, bind, Except.bind, hcall]; rfl, h.put hg hr'⟩
  | append dst src =>
    exact exec_append h hop rfl
  | addAssignCStr dst t =>
    exact exec_addCStr h hop hcounts rfl
  | addAssign dst src =>
    exact exec_append h hop rfl
  | addCStr dst lhs t =>
    exact exec_addCStr h hop hcounts rfl
  | add dst lhs rhs =>
    exact exec_append h hop rfl
  | cStr src fresh =>
    obtain ⟨text, htext, hop⟩ := Option.bind_eq_some_iff.1 hop
    cases hop
    obtain ⟨r, -, hget, hr⟩ := h.get_some htext
    obtain ⟨h', hcall⟩ := Rope.cStr_holds hr (hcounts text htext) fresh
    refine ⟨_, by simp only [exec, hget, bind, Except.bind, hcall]; rfl, ?_⟩
    exact h.grow (Rope.cStr_keeps hcall).1

/-- A rope and a C string that are appended. -/
lemma short_of_addCStr {s s' : RopeStore w} {texts : RopeTexts} {dst lhs : ℕ} {t : CString w}
    (h : s.Refines texts)
    (hexec : (do
      let r ← s.get lhs
      return s.put dst (← r.addAssignCStr s.heap t)) = .ok s') :
    t.chars.length + 1 < 2 ^ 31 ∧ ∃ text, texts lhs = some text := by
  obtain ⟨r, hget, hexec⟩ := ok_of_bind hexec
  obtain ⟨res, hcall, -⟩ := ok_of_bind hexec
  obtain ⟨len, hlen, -⟩ := ok_of_bind hcall
  obtain ⟨text, htext, -⟩ := h.text hget
  exact ⟨Rope.short_of_strlen hlen, text, htext⟩

lemma texts_of_append {s s' : RopeStore w} {texts : RopeTexts} {dst lhs rhs : ℕ}
    (h : s.Refines texts)
    (hexec : (do
      let r ← s.get lhs
      return s.put dst (← Rope.append s.heap r (← s.get rhs))) = .ok s') :
    ∃ text text', texts lhs = some text ∧ texts rhs = some text' := by
  obtain ⟨r, hget, hexec⟩ := ok_of_bind hexec
  obtain ⟨src, hget', -⟩ := ok_of_bind hexec
  obtain ⟨text, htext, -⟩ := h.text hget
  obtain ⟨text', htext', -⟩ := h.text hget'
  exact ⟨text, text', htext, htext'⟩

/-- A statement that returns counts right. -/
theorem counts_of_exec {s s' : RopeStore w} {texts : RopeTexts} {op : RopeStmt w}
    (h : s.Refines texts) (hexec : s.exec op = .ok s') :
    texts.Counts op ∧ ∃ texts', texts.apply op = some texts' := by
  cases op with
  | ofCStr dst t =>
    obtain ⟨res, hcall, -⟩ := ok_of_bind hexec
    obtain ⟨len, hlen, -⟩ := ok_of_bind hcall
    exact ⟨Rope.short_of_strlen hlen, _, rfl⟩
  | ofView dst t => exact ⟨trivial, _, rfl⟩
  | copy dst src =>
    obtain ⟨r, hget, -⟩ := ok_of_bind hexec
    obtain ⟨text, htext, -⟩ := h.text hget
    exact ⟨trivial, _, by rw [RopeTexts.apply, htext]; rfl⟩
  | appendLen dst t =>
    obtain ⟨r, hget, -⟩ := ok_of_bind hexec
    obtain ⟨text, htext, -⟩ := h.text hget
    exact ⟨trivial, _, by rw [RopeTexts.apply, htext]; rfl⟩
  | append dst src =>
    obtain ⟨text, text', htext, htext'⟩ := texts_of_append h hexec
    exact ⟨trivial, _, by rw [RopeTexts.apply, htext, htext']; rfl⟩
  | addAssignCStr dst t =>
    obtain ⟨hshort, text, htext⟩ := short_of_addCStr h hexec
    exact ⟨hshort, _, by rw [RopeTexts.apply, htext]; rfl⟩
  | addAssign dst src =>
    obtain ⟨text, text', htext, htext'⟩ := texts_of_append h hexec
    exact ⟨trivial, _, by rw [RopeTexts.apply, htext, htext']; rfl⟩
  | addCStr dst lhs t =>
    obtain ⟨hshort, text, htext⟩ := short_of_addCStr h hexec
    exact ⟨hshort, _, by rw [RopeTexts.apply, htext]; rfl⟩
  | add dst lhs rhs =>
    obtain ⟨text, text', htext, htext'⟩ := texts_of_append h hexec
    exact ⟨trivial, _, by rw [RopeTexts.apply, htext, htext']; rfl⟩
  | cStr src fresh =>
    obtain ⟨r, hget, hexec⟩ := ok_of_bind hexec
    obtain ⟨res, hcall, -⟩ := ok_of_bind hexec
    obtain ⟨text, htext, hr⟩ := h.text hget
    refine ⟨fun text' htext' => ?_, _, by rw [RopeTexts.apply, htext]; rfl⟩
    rw [htext] at htext'
    cases htext'
    exact Rope.fits_of_cStr hr hcall

/-! ## Runs -/

/-- A program that counts right at each statement. -/
lemma run_refines {prog : List (RopeStmt w)} {s : RopeStore w} {texts texts' : RopeTexts}
    (h : s.Refines texts) (hrun : prog.foldlM RopeTexts.apply texts = some texts')
    (hcounts : Runs.Along RopeTexts.apply RopeTexts.Counts texts prog) :
    ∃ s', prog.foldlM exec s = .ok s' ∧ s'.Refines texts' := by
  induction prog generalizing s texts with
  | nil =>
    cases hrun
    exact ⟨s, rfl, h⟩
  | cons op prog ih =>
    obtain ⟨texts₁, hop, hrest⟩ := Option.bind_eq_some_iff.1 hrun
    obtain ⟨s₁, hexec, h₁⟩ := exec_refines h hop hcounts.1
    obtain ⟨s', hrun', h'⟩ := ih h₁ hrest (hcounts.2 texts₁ hop)
    refine ⟨s', ?_, h'⟩
    rw [List.foldlM_cons, hexec]
    exact hrun'

/-- A program that ends has counted right. -/
lemma along_of_run {prog : List (RopeStmt w)} {s s' : RopeStore w} {texts : RopeTexts}
    (h : s.Refines texts) (hrun : prog.foldlM exec s = .ok s') :
    Runs.Along RopeTexts.apply RopeTexts.Counts texts prog ∧
      ∃ texts', prog.foldlM RopeTexts.apply texts = some texts' ∧ s'.Refines texts' := by
  induction prog generalizing s texts with
  | nil =>
    cases hrun
    exact ⟨trivial, texts, rfl, h⟩
  | cons op prog ih =>
    obtain ⟨s₁, hexec, hrest⟩ := ok_of_bind hrun
    obtain ⟨hcounts, texts₁, hop⟩ := counts_of_exec h hexec
    obtain ⟨s₂, hexec', h₁⟩ := exec_refines h hop hcounts
    obtain rfl := Except.ok.inj (hexec.symm.trans hexec')
    obtain ⟨halong, texts', hrun', h'⟩ := ih h₁ hrest
    refine ⟨⟨hcounts, fun texts₂ hop' => ?_⟩, texts', ?_, h'⟩
    · obtain rfl := Option.some.inj (hop.symm.trans hop')
      exact halong
    · rw [List.foldlM_cons, hop]
      exact hrun'

/-- A program ends with ropes that give the texts of their variables exactly when it has counted right
and a `size_t` can count these texts with their NUL. -/
theorem run_faithful_iff (prog : List (RopeStmt w)) (texts : RopeTexts)
    (hprog : prog.foldlM RopeTexts.apply RopeTexts.empty = some texts) :
    (∃ s, prog.foldlM exec empty = .ok s ∧ ∀ x text, texts x = some text →
      ∃ r, s.vars x = some r ∧ Rope.Faithful s.heap r text) ↔
    Runs.Along RopeTexts.apply RopeTexts.Counts RopeTexts.empty prog ∧
      ∀ x text, texts x = some text → text.length + 1 < 2 ^ w := by
  constructor
  · rintro ⟨s, hrun, hfaithful⟩
    obtain ⟨halong, texts', hprog', h⟩ := along_of_run refines_empty hrun
    obtain rfl := Option.some.inj (hprog.symm.trans hprog')
    refine ⟨halong, fun x text hx => ?_⟩
    obtain ⟨r, hr, hf⟩ := hfaithful x text hx
    obtain ⟨r', hr', -, hholds⟩ := h.get_some hx
    obtain rfl := Option.some.inj (hr.symm.trans hr')
    exact (Rope.faithful_iff hholds).mp hf
  · rintro ⟨halong, hfits⟩
    obtain ⟨s, hrun, h⟩ := run_refines refines_empty hprog halong
    refine ⟨s, hrun, fun x text hx => ?_⟩
    obtain ⟨r, hr, -, hholds⟩ := h.get_some hx
    exact ⟨r, hr, (Rope.faithful_iff hholds).mpr (hfits x text hx)⟩

/-! ## Doubling -/

/-- `rope("a")`, and `n` times the rope is appended to itself. -/
def doubling (n : ℕ) : List (RopeStmt 32) :=
  .ofCStr 0 ⟨[97], by decide, by decide⟩ :: List.replicate n (.append 0 0)

lemma doubling_texts (n : ℕ) : (doubling n).foldlM RopeTexts.apply RopeTexts.empty =
    some (RopeTexts.empty.put 0 (List.replicate (2 ^ n) 97)) := by
  induction n with
  | zero => rfl
  | succ n ih =>
    have hput : (RopeTexts.empty.put 0 (List.replicate (2 ^ n) 97)).apply (w := 32) (.append 0 0) =
        some (RopeTexts.empty.put 0 (List.replicate (2 ^ (n + 1)) 97)) := by
      rw [Nat.pow_succ, Nat.mul_two, ← List.replicate_append_replicate]
      refine congrArg some (funext fun y => ?_)
      unfold RopeTexts.put
      split <;> rfl
    rw [doubling, List.replicate_succ', ← List.cons_append, List.foldlM_append]
    show ((doubling n).foldlM RopeTexts.apply RopeTexts.empty >>= _) = _
    simp only [ih, Option.bind_eq_bind, Option.bind_some, List.foldlM_cons, hput]
    rfl

lemma doubling_counts (n : ℕ) :
    Runs.Along RopeTexts.apply RopeTexts.Counts RopeTexts.empty (doubling n) := by
  have hrest : ∀ texts : RopeTexts, Runs.Along RopeTexts.apply RopeTexts.Counts texts
      (List.replicate n (RopeStmt.append (w := 32) 0 0)) := by
    induction n with
    | zero => exact fun _ => trivial
    | succ n ih => exact fun texts => ⟨trivial, fun texts' _ => ih texts'⟩
  exact ⟨show [97].length + 1 < 2 ^ 31 by decide, fun texts _ => hrest texts⟩

theorem run_faithful_iff_doubling : ∃ s, (doubling 2).foldlM exec empty = .ok s ∧ ∀ x text,
    RopeTexts.empty.put 0 [97, 97, 97, 97] x = some text →
      ∃ r, s.vars x = some r ∧ Rope.Faithful s.heap r text := by
  refine (run_faithful_iff (doubling 2) _ (doubling_texts 2)).mpr ⟨doubling_counts 2, ?_⟩
  intro x text hx
  unfold RopeTexts.put at hx
  split at hx
  · cases hx
    decide
  · cases hx

/-- After 32 doublings the length has wrapped to zero. -/
theorem exists_wrapped_length : ∃ texts text s r,
    (doubling 32).foldlM RopeTexts.apply RopeTexts.empty = some texts ∧ texts 0 = some text ∧
      text.length = 2 ^ 32 ∧ (doubling 32).foldlM exec empty = .ok s ∧ s.vars 0 = some r ∧
      r.length.toNat = 0 := by
  obtain ⟨s, hrun, h⟩ := run_refines refines_empty (doubling_texts 32) (doubling_counts 32)
  have htext : RopeTexts.empty.put 0 (List.replicate (2 ^ 32) 97) 0 =
      some (List.replicate (2 ^ 32) 97) := if_pos rfl
  obtain ⟨r, hr, -, p, -, -, -, hsize⟩ := h.get_some htext
  refine ⟨_, _, s, r, doubling_texts 32, htext, List.length_replicate, hrun, hr, ?_⟩
  rw [Rope.length, hsize, List.length_replicate]
  rfl

end RopeStore

end UosioCdt.Core
