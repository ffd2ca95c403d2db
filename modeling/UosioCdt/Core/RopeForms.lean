import Mathlib.Data.List.Basic
import UosioCdt.Core.RopeRun

/-!
# The ways to append a text

A text is appended to a rope by `append`, `+=` or `+`, and it is given as a literal, a `const char*`,
a pointer with a length or a rope. Overload resolution selects the function. They agree but for
`append` of a literal, which takes the extent of the array for the length and appends the NUL, too
(`appendForms_agree_iff`).
-/

namespace UosioCdt.Core

open Aborting RopeHeap

variable {w : ℕ}

/-- A rope that is built from the text, as a C string or as a view. -/
inductive RopeArg where
  | ofCStr
  | ofView
deriving DecidableEq

/-- The forms that compile. -/
inductive AppendForm where
  | appendLiteral
  | appendCStr
  | appendLen
  | append (arg : RopeArg)
  | addAssignLiteral
  | addAssignCStr
  | addAssign (arg : RopeArg)
  | addLiteral
  | addCStr
  | add (arg : RopeArg)
deriving DecidableEq

/-- The characters of the string, without the NUL. -/
def CString.view (s : CString w) : StringView w :=
  ⟨s.data, BitVec.ofNat w s.chars.length, (Rope.take_data s).2⟩

def RopeArg.build (h : RopeHeap w) (t : CString w) : RopeArg → Except RopeFault (Rope w × RopeHeap w)
  | .ofCStr => Rope.ofCStr h t
  | .ofView => .ok (Rope.ofView h t.view)

namespace AppendForm

/-- The function that overload resolution selects for the form. -/
def call (h : RopeHeap w) (r : Rope w) (t : CString w) :
    AppendForm → Except RopeFault (Rope w × RopeHeap w)
  -- the array is bound to `const char (&)[N]`
  | appendLiteral => r.appendLiteral h t
  -- a pointer is not an array: it is converted by `rope(const char*)`
  | appendCStr => do
    let (src, h) ← RopeArg.build h t .ofCStr
    Rope.append h r src
  | appendLen => r.appendLen h t.view.data t.view.size
  | append arg => do
    let (src, h) ← arg.build h t
    Rope.append h r src
  -- the array decays to `const char*`
  | addAssignLiteral => r.addAssignCStr h t
  | addAssignCStr => r.addAssignCStr h t
  | addAssign arg => do
    let (src, h) ← arg.build h t
    Rope.addAssign h r src
  | addLiteral => r.addCStr h t
  | addCStr => r.addCStr h t
  | add arg => do
    let (src, h) ← arg.build h t
    Rope.add h r src

/-- The form counts the characters with `strlen`. -/
def usesStrlen : AppendForm → Bool
  | appendLiteral => false
  | appendLen => false
  | append arg => arg = .ofCStr
  | addAssign arg => arg = .ofCStr
  | add arg => arg = .ofCStr
  | _ => true

/-- The form returns a rope that gives the text of `r` followed by `t`. -/
def Agrees (h : RopeHeap w) (r : Rope w) (text : List UInt8) (t : CString w) (f : AppendForm) :
    Prop :=
  ∃ r' h', f.call h r t = .ok (r', h') ∧ r'.length.toNat = text.length + t.chars.length ∧
    ∀ fresh, ∃ h'', r'.cStr h' fresh = .ok (text ++ t.chars ++ [0], h'')

/-! ## The text of a form -/

/-- What is appended. -/
def appended (t : CString w) : AppendForm → List UInt8
  | appendLiteral => t.data
  | _ => t.chars

variable {h : RopeHeap w} {r : Rope w} {text : List UInt8} {t : CString w}

lemma build_holds {arg : RopeArg} (hshort : arg = .ofCStr → t.chars.length + 1 < 2 ^ 31) :
    ∃ src h', arg.build h t = .ok (src, h') ∧ Grows h h' ∧ src.Holds h' t.chars := by
  cases arg with
  | ofCStr => exact Rope.ofCStr_holds (hshort rfl)
  | ofView =>
    obtain ⟨hg, hsrc⟩ := Rope.ofView_holds h t.view
    have hchars : t.view.chars = t.chars := (Rope.take_data t).1
    exact ⟨_, _, rfl, hg, hchars ▸ hsrc⟩

lemma build_append_holds {arg : RopeArg} (hr : r.Holds h text)
    (hshort : arg = .ofCStr → t.chars.length + 1 < 2 ^ 31) :
    ∃ r' h', (do
      let (src, h) ← arg.build h t
      Rope.append h r src) = .ok (r', h') ∧ r'.Holds h' (text ++ t.chars) := by
  obtain ⟨src, h₁, hbuild, hg, hsrc⟩ := build_holds (h := h) hshort
  obtain ⟨r', h', hcall, -, hr'⟩ := Rope.append_holds (hr.mono hg) hsrc
  exact ⟨r', h', by rw [hbuild]; exact hcall, hr'⟩

lemma addAssignCStr_call (hr : r.Holds h text) (hshort : t.chars.length + 1 < 2 ^ 31) :
    ∃ r' h', r.addAssignCStr h t = .ok (r', h') ∧ r'.Holds h' (text ++ t.chars) := by
  obtain ⟨r', h', hcall, -, hr'⟩ := Rope.addAssignCStr_holds hr hshort
  exact ⟨r', h', hcall, hr'⟩

/-- A form appends its text, if it can count it. -/
lemma call_holds (f : AppendForm) (hr : r.Holds h text)
    (hshort : f.usesStrlen = true → t.chars.length + 1 < 2 ^ 31) :
    ∃ r' h', f.call h r t = .ok (r', h') ∧ r'.Holds h' (text ++ f.appended t) := by
  cases f with
  | appendLiteral =>
    have hlen : (BitVec.ofNat w t.data.length).toNat = t.data.length := by
      rw [CString.data, List.length_append]
      exact toNat_ofNat_of_lt t.fits
    obtain ⟨r', h', hcall, -, hr'⟩ := Rope.appendLen_holds hr (Nat.le_of_eq hlen)
    rw [hlen, List.take_length] at hr'
    exact ⟨r', h', hcall, hr'⟩
  | appendCStr => exact build_append_holds hr fun _ => hshort rfl
  | appendLen =>
    obtain ⟨htake, hsize⟩ := Rope.take_data t
    obtain ⟨r', h', hcall, -, hr'⟩ := Rope.appendLen_holds hr hsize
    rw [htake] at hr'
    exact ⟨r', h', hcall, hr'⟩
  | append arg => exact build_append_holds hr fun harg => hshort (decide_eq_true harg)
  | addAssignLiteral => exact addAssignCStr_call hr (hshort rfl)
  | addAssignCStr => exact addAssignCStr_call hr (hshort rfl)
  | addAssign arg => exact build_append_holds hr fun harg => hshort (decide_eq_true harg)
  | addLiteral => exact addAssignCStr_call hr (hshort rfl)
  | addCStr => exact addAssignCStr_call hr (hshort rfl)
  | add arg => exact build_append_holds hr fun harg => hshort (decide_eq_true harg)

lemma short_of_build {α : Type} {arg : RopeArg} {k : Rope w × RopeHeap w → Except RopeFault α} {a : α}
    (hcall : arg.build h t >>= k = .ok a) (harg : arg = .ofCStr) : t.chars.length + 1 < 2 ^ 31 := by
  obtain ⟨res, hbuild, -⟩ := ok_of_bind hcall
  subst harg
  obtain ⟨len, hlen, -⟩ := ok_of_bind hbuild
  exact Rope.short_of_strlen hlen

lemma short_of_addAssignCStr {res : Rope w × RopeHeap w} (hcall : r.addAssignCStr h t = .ok res) :
    t.chars.length + 1 < 2 ^ 31 := by
  obtain ⟨len, hlen, -⟩ := ok_of_bind hcall
  exact Rope.short_of_strlen hlen

/-- A form that returns has counted the characters. -/
lemma short_of_call {f : AppendForm} {res : Rope w × RopeHeap w} (hcall : f.call h r t = .ok res)
    (hf : f.usesStrlen = true) : t.chars.length + 1 < 2 ^ 31 := by
  cases f with
  | appendLiteral => cases hf
  | appendCStr => exact short_of_build hcall rfl
  | appendLen => cases hf
  | append arg => exact short_of_build hcall (of_decide_eq_true hf)
  | addAssignLiteral => exact short_of_addAssignCStr hcall
  | addAssignCStr => exact short_of_addAssignCStr hcall
  | addAssign arg => exact short_of_build hcall (of_decide_eq_true hf)
  | addLiteral => exact short_of_addAssignCStr hcall
  | addCStr => exact short_of_addAssignCStr hcall
  | add arg => exact short_of_build hcall (of_decide_eq_true hf)

lemma appended_eq {f : AppendForm} (hf : f ≠ .appendLiteral) : f.appended t = t.chars := by
  cases f <;> first | rfl | exact absurd rfl hf

/-- With the NUL the length is another one. -/
lemma length_literal_ne {r' : Rope w} {h' : RopeHeap w} (hr' : r'.Holds h' (text ++ t.data)) :
    r'.length.toNat ≠ text.length + t.chars.length := by
  obtain ⟨p, -, -, -, hsize⟩ := hr'
  have hpos : 1 < 2 ^ w := Nat.lt_of_le_of_lt (Nat.le_add_left 1 _) t.fits
  rw [Rope.length, hsize, BitVec.toNat_ofNat, CString.data, List.length_append, List.length_append,
    List.length_singleton, ← Nat.add_assoc]
  intro heq
  have hlt : text.length + t.chars.length < 2 ^ w := heq ▸ Nat.mod_lt _ (Nat.lt_of_succ_lt hpos)
  obtain hfits | hwraps := Nat.lt_or_eq_of_le (Nat.succ_le_of_lt hlt)
  · rw [Nat.mod_eq_of_lt hfits] at heq
    omega
  · rw [← hwraps, Nat.succ_eq_add_one, Nat.mod_self] at heq
    omega

/-- In every store that a program reaches, the forms give the text of a rope followed by `t`, but for
`append` of a literal, as long as the types can count the characters. -/
theorem appendForms_agree_iff (prog : List (RopeStmt w)) (s : RopeStore w)
    (hrun : prog.foldlM RopeStore.exec RopeStore.empty = .ok s) (x : ℕ) (r : Rope w)
    (hx : s.vars x = some r) :
    ∃ texts text, prog.foldlM RopeTexts.apply RopeTexts.empty = some texts ∧
      texts x = some text ∧ ∀ (f : AppendForm) (t : CString w), f.Agrees s.heap r text t ↔
        f ≠ .appendLiteral ∧ (f.usesStrlen = true → t.chars.length + 1 < 2 ^ 31) ∧
          text.length + t.chars.length + 1 < 2 ^ w := by
  obtain ⟨-, texts, hprog, href⟩ := RopeStore.along_of_run RopeStore.refines_empty hrun
  obtain ⟨text, htext, hr⟩ := href.text (r := r) (by rw [RopeStore.get, hx])
  refine ⟨texts, text, hprog, htext, fun f t => ⟨?_, ?_⟩⟩
  · rintro ⟨r', h', hcall, hlen, hret⟩
    have hshort := short_of_call hcall
    obtain ⟨r'', h'', hcall', hr''⟩ := call_holds f hr hshort
    obtain ⟨rfl, rfl⟩ := Prod.mk.inj (Except.ok.inj (hcall.symm.trans hcall'))
    have hf : f ≠ .appendLiteral := by
      rintro rfl
      exact length_literal_ne hr'' hlen
    refine ⟨hf, hshort, ?_⟩
    obtain ⟨_, hcstr⟩ := hret fun _ => 0
    have hfits := Rope.fits_of_cStr hr'' hcstr
    rwa [appended_eq hf, List.length_append] at hfits
  · rintro ⟨hf, hshort, hfits⟩
    obtain ⟨r', h', hcall, hr'⟩ := call_holds f hr hshort
    rw [appended_eq hf] at hr'
    have hfaithful := (Rope.faithful_iff hr').mpr (by rwa [List.length_append])
    refine ⟨r', h', hcall, ?_, hfaithful.cStr_eq⟩
    rw [hfaithful.length_eq, List.length_append]

/-- The store behind `rope("a")`. -/
def oneRope : RopeStore 32 :=
  RopeStore.empty.put 0
    (⟨some 1, some 1, 1⟩, [.str [97, 0] 1 none, .concat (some 0) none none false])

theorem appendForms_agree_iff_oneRope :
    ∃ texts text, (RopeStore.doubling 0).foldlM RopeTexts.apply RopeTexts.empty = some texts ∧
      texts 0 = some text ∧ ∀ (f : AppendForm) (t : CString 32),
        f.Agrees oneRope.heap ⟨some 1, some 1, 1⟩ text t ↔
          f ≠ .appendLiteral ∧ (f.usesStrlen = true → t.chars.length + 1 < 2 ^ 31) ∧
            text.length + t.chars.length + 1 < 2 ^ 32 :=
  appendForms_agree_iff (RopeStore.doubling 0) oneRope rfl 0 _ rfl

/-- `append("b")` makes three characters of `rope("a")`, and `append("b", 1)` two. -/
theorem exists_appended_nul : ∃ r h' r' h'' h₃,
    (RopeStore.doubling 0).foldlM RopeStore.exec RopeStore.empty = .ok oneRope ∧
      AppendForm.call oneRope.heap ⟨some 1, some 1, 1⟩ ⟨[98], by decide, by decide⟩ .appendLiteral =
        .ok (r, h') ∧ r.length = 3 ∧ r.cStr h' (fun _ => 0) = .ok ([97, 98, 0, 0], h₃) ∧
      AppendForm.call oneRope.heap ⟨some 1, some 1, 1⟩ ⟨[98], by decide, by decide⟩ .appendLen =
        .ok (r', h'') ∧ r'.length = 2 :=
  ⟨_, _, _, _, _, rfl, rfl, rfl, rfl, rfl, rfl⟩

end AppendForm

end UosioCdt.Core
