import Mathlib.Data.List.Basic
import UosioCdt.Core.RopeTheorems

/-!
# The functions of `rope` and their texts

What the constructors, `append`, `at` and `c_str` do on ropes that hold a text.
-/

namespace UosioCdt.Core

open Aborting RopeHeap

variable {w : ℕ}

/-! ## `size_t` -/

lemma ofNat_sub_of_le {m : ℕ} {size : BitVec w} (hle : size.toNat ≤ m) :
    BitVec.ofNat w m - size = BitVec.ofNat w (m - size.toNat) := by
  have hm : m = m - size.toNat + size.toNat := by omega
  rw [hm, BitVec.ofNat_add, BitVec.ofNat_toNat, BitVec.setWidth_eq, BitVec.add_sub_cancel,
    Nat.add_sub_cancel]

lemma toNat_ofNat_of_lt {m : ℕ} (hm : m < 2 ^ w) : (BitVec.ofNat w m).toNat = m := by
  rw [BitVec.toNat_ofNat, Nat.mod_eq_of_lt hm]

/-! ## `at` -/

namespace RopeAt

/-- Nothing is visited any more. -/
lemma visit_stop {h : RopeHeap w} {p fuel : ℕ} {index : BitVec w} {s : RopeAt w}
    (hp : IsConcat h p) (hstop : s.stop = true) : visit h index (fuel + 1) p s = .ok s := by
  obtain ⟨left, right, temp, tempLeft, hp⟩ := hp
  rw [visit, deref_eq hp]
  simp [hstop, bind, Except.bind, pure, Except.pure]

lemma visit_left {h : RopeHeap w} {p left fuel : ℕ} {temp : Option ℕ} {tempLeft : Bool}
    {index : BitVec w} {s : RopeAt w} (hp : h[p]? = some (.concat (some left) none temp tempLeft))
    (hstop : s.stop = false) : visit h index (fuel + 1) p s = visit h index fuel left s := by
  rw [visit, deref_eq hp]
  simp only [bind, Except.bind, hstop, Bool.false_eq_true, if_false]
  cases visit h index fuel left s <;> rfl

lemma visit_both {h : RopeHeap w} {p left right fuel : ℕ} {temp : Option ℕ} {tempLeft : Bool}
    {index : BitVec w} {s : RopeAt w}
    (hp : h[p]? = some (.concat (some left) (some right) temp tempLeft)) (hstop : s.stop = false) :
    visit h index (fuel + 1) p s =
      visit h index fuel left s >>= fun s => visit h index fuel right s := by
  rw [visit, deref_eq hp]
  simp only [bind, Except.bind, hstop, Bool.false_eq_true, if_false]

/-- The characters of a text stand in front of the first `m`. If the index is among them, `at` finds
its character there, else it goes on in front of the text. -/
def Finds (h : RopeHeap w) (index : BitVec w) (p : ℕ) (text : List UInt8) : Prop :=
  ∀ fuel ret m, p < fuel → text.length ≤ m → m < 2 ^ w → index.toNat < m →
    (index.toNat < m - text.length → visit h index fuel p ⟨ret, BitVec.ofNat w m, false⟩ =
      .ok ⟨ret, BitVec.ofNat w (m - text.length), false⟩) ∧
    (m - text.length ≤ index.toNat → ∃ c indexSoFar,
      text[index.toNat - (m - text.length)]? = some c ∧
        visit h index fuel p ⟨ret, BitVec.ofNat w m, false⟩ = .ok ⟨c, indexSoFar, true⟩)

lemma finds_str {h : RopeHeap w} {index : BitVec w} {p : ℕ} {cStr : List UInt8} {size : BitVec w}
    {temp : Option ℕ} (hp : h[p]? = some (.str cStr size temp)) (hsize : size.toNat ≤ cStr.length) :
    Finds h index p (cStr.take size.toNat) := by
  intro fuel ret m hfuel hle hm hindex
  rw [List.length_take_of_le hsize] at hle ⊢
  obtain ⟨fuel, rfl⟩ := Nat.exists_eq_add_of_lt hfuel
  have hsoFar := ofNat_sub_of_le (w := w) hle
  have htoNat : (BitVec.ofNat w (m - size.toNat)).toNat = m - size.toNat :=
    toNat_ofNat_of_lt (by omega)
  rw [visit, deref_eq hp]
  simp only [bind, Except.bind, hsoFar, BitVec.le_def, htoNat]
  refine ⟨fun hlt => ?_, fun hge => ?_⟩
  · rw [if_neg (Nat.not_le.mpr hlt)]
    rfl
  · have hsub : (index - BitVec.ofNat w (m - size.toNat)).toNat = index.toNat - (m - size.toNat) := by
      rw [BitVec.toNat_sub_of_le (by rwa [BitVec.le_def, htoNat]), htoNat]
    have hlt : index.toNat - (m - size.toNat) < cStr.length := by omega
    refine ⟨cStr[index.toNat - (m - size.toNat)], .ofNat w (m - size.toNat), ?_, ?_⟩
    · rw [List.getElem?_take_of_lt (by omega), List.getElem?_eq_getElem hlt]
    · rw [if_pos hge, hsub, List.getElem?_eq_getElem hlt]
      rfl

theorem finds_of_denotes {h : RopeHeap w} {p : ℕ} {text : List UInt8} (index : BitVec w)
    (hd : Denotes h p text) : Finds h index p text := by
  induction hd with
  | str hp hsize => exact finds_str hp hsize
  | @left p left temp tempLeft text hp hlt _ ih =>
    intro fuel ret m hfuel
    obtain ⟨fuel, rfl⟩ := Nat.exists_eq_add_of_lt hfuel
    rw [visit_left hp rfl]
    exact ih (p + fuel) ret m (by omega)
  | @both p left right temp tempLeft text before hp hleft hright hconcat _ _ ih ih' =>
    intro fuel ret m hfuel hle hm hindex
    rw [List.length_append] at hle ⊢
    obtain ⟨fuel, rfl⟩ := Nat.exists_eq_add_of_lt hfuel
    obtain ⟨hmiss, hhit⟩ := ih (p + fuel) ret m (by omega) (by omega) hm hindex
    rw [visit_both hp rfl]
    by_cases hlt : index.toNat < m - text.length
    · -- the left part is passed
      rw [hmiss hlt]
      obtain ⟨hmiss', hhit'⟩ :=
        ih' (p + fuel) ret (m - text.length) (by omega) (by omega) (by omega) hlt
      rw [Nat.sub_sub, Nat.add_comm text.length] at hmiss' hhit'
      refine ⟨hmiss', fun hge => ?_⟩
      obtain ⟨c, indexSoFar, hc, hvisit⟩ := hhit' hge
      refine ⟨c, indexSoFar, ?_, hvisit⟩
      rw [List.getElem?_append_left (by omega), hc]
    · obtain ⟨c, indexSoFar, hc, hvisit⟩ := hhit (Nat.not_lt.mp hlt)
      obtain ⟨fuel', hfuel'⟩ : ∃ fuel', p + fuel = fuel' + 1 := ⟨p + fuel - 1, by omega⟩
      refine ⟨fun _ => by omega, fun hge => ⟨c, indexSoFar, ?_, ?_⟩⟩
      · rw [List.getElem?_append_right (by omega), ← hc]
        congr 1
        omega
      · rw [hvisit]
        show visit h index (p + fuel) right _ = _
        rw [hfuel', visit_stop hconcat rfl]

end RopeAt

/-! ## Building ropes -/

namespace Rope

/-- The rope is the text. -/
def Holds (h : RopeHeap w) (r : Rope w) (text : List UInt8) : Prop :=
  ∃ p, r.root = some p ∧ IsConcat h p ∧ Denotes h p text ∧ r.size = BitVec.ofNat w text.length

/-- Changes of other ropes do not reach the text. -/
lemma Holds.mono {h h' : RopeHeap w} {r : Rope w} {text : List UInt8} (hr : r.Holds h text)
    (hg : Grows h h') : r.Holds h' text := by
  obtain ⟨p, hroot, hconcat, hd, hsize⟩ := hr
  exact ⟨p, hroot, hconcat.mono hg, hd.mono hg, hsize⟩

lemma strlenFrom_eq {chars : List UInt8} (i : ℕ) (hchars : 0 ∉ chars) :
    strlenFrom i (chars ++ [0]) =
      if 2 ^ 31 ≤ i + chars.length + 1 then .error .intOverflow else .ok (i + chars.length + 1) := by
  induction chars generalizing i with
  | nil => rfl
  | cons c chars ih =>
    rw [List.mem_cons, not_or] at hchars
    rw [List.cons_append, strlenFrom, ih (i + 1) hchars.2, if_pos (Ne.symm hchars.1),
      List.length_cons, show i + 1 + chars.length + 1 = i + (chars.length + 1) + 1 by omega]
    split
    · rw [if_pos (by omega)]
    · rfl

/-- `strlen(s) - 1` is the length, if an `int` can count to behind the NUL. -/
lemma strlen_eq (s : CString w) :
    strlen s = if 2 ^ 31 ≤ s.chars.length + 1 then .error .intOverflow
      else .ok (BitVec.ofNat w (s.chars.length + 1)) := by
  rw [strlen, CString.data, strlenFrom_eq 0 s.nonzero, Nat.zero_add]
  split <;> rfl

lemma strlen_short {s : CString w} (hs : s.chars.length + 1 < 2 ^ 31) :
    strlen s = .ok (BitVec.ofNat w (s.chars.length + 1)) := by
  rw [strlen_eq, if_neg (Nat.not_le.mpr hs)]

lemma short_of_strlen {s : CString w} {n : BitVec w} (h : strlen s = .ok n) :
    s.chars.length + 1 < 2 ^ 31 := by
  rw [strlen_eq] at h
  split at h
  · cases h
  · rename_i hlt
    exact Nat.not_le.mp hlt

lemma ofNat_succ_sub_one (m : ℕ) : BitVec.ofNat w (m + 1) - 1 = BitVec.ofNat w m := by
  rw [BitVec.ofNat_add]
  exact BitVec.add_sub_cancel _ _

/-- The characters behind the pointer up to the length of the string. -/
lemma take_data (s : CString w) :
    s.data.take (BitVec.ofNat w s.chars.length).toNat = s.chars ∧
      (BitVec.ofNat w s.chars.length).toNat ≤ s.data.length := by
  have hlt : s.chars.length < 2 ^ w := Nat.lt_of_succ_lt s.fits
  rw [toNat_ofNat_of_lt hlt, CString.data, List.take_left, List.length_append]
  exact ⟨rfl, Nat.le_add_right _ _⟩

/-- What stands to the right of a new node: the root of the rope before, or nothing. -/
def DenotesRight (h : RopeHeap w) : Option ℕ → List UInt8 → Prop
  | none, before => before = []
  | some q, before => IsConcat h q ∧ Denotes h q before

/-- The two nodes that hold a new text in front of others. -/
def textNodes (h : RopeHeap w) (data : List UInt8) (size : BitVec w) (right : Option ℕ) :
    RopeHeap w :=
  h ++ [.str data size none, .concat (some h.length) right none false]

lemma denotes_textNodes {h : RopeHeap w} {data before : List UInt8} {size : BitVec w}
    {right : Option ℕ} (hsize : size.toNat ≤ data.length) (hright : DenotesRight h right before) :
    IsConcat (textNodes h data size right) (h.length + 1) ∧
      Denotes (textNodes h data size right) (h.length + 1) (before ++ data.take size.toNat) := by
  have hstr : (textNodes h data size right)[h.length]? = some (.str data size none) := by
    simp [textNodes]
  have hconcat : (textNodes h data size right)[h.length + 1]? =
      some (.concat (some h.length) right none false) := by
    simp [textNodes]
  have hd := Denotes.str hstr hsize
  refine ⟨⟨_, _, _, _, hconcat⟩, ?_⟩
  cases right with
  | none =>
    obtain rfl : before = [] := hright
    exact .left hconcat (Nat.lt_succ_self _) hd
  | some q =>
    obtain ⟨hq, hdq⟩ := hright
    have hg : Grows h (textNodes h data size (some q)) := grows_append _ _
    obtain ⟨n, hn⟩ := hdq.exists_node
    have hlt := (List.getElem?_eq_some_iff.1 hn).1
    exact .both hconcat (Nat.lt_succ_self _) (Nat.lt_succ_of_lt hlt) (hq.mono hg) hd (hdq.mono hg)

lemma ofCStr_eq {h : RopeHeap w} {s : CString w} (hs : s.chars.length + 1 < 2 ^ 31) :
    ofCStr h s = .ok (⟨some (h.length + 1), some (h.length + 1), BitVec.ofNat w s.chars.length⟩,
      textNodes h s.data (BitVec.ofNat w s.chars.length) none) := by
  have hsize : (0 : BitVec w) + BitVec.ofNat w s.chars.length = BitVec.ofNat w s.chars.length :=
    BitVec.zero_add _
  rw [ofCStr, strlen_short hs]
  simp only [bind, Except.bind, ofNat_succ_sub_one, hsize]
  rfl

lemma appendLen_eq (h : RopeHeap w) (r : Rope w) (data : List UInt8) (len : BitVec w) :
    appendLen h r data len = .ok (⟨some (h.length + 1), r.last, r.size + len⟩,
      textNodes h data len r.root) := by
  have hnode : (h ++ [.str data len none, .concat (some h.length) none none false])[h.length + 1]? =
      some (.concat (some h.length) none none false : RopeNode w) := by
    simp
  rw [appendLen, appendNode, deref_eq hnode]
  simp [bind, Except.bind, pure, Except.pure, textNodes]

lemma append_eq {h : RopeHeap w} {r src : Rope w} {p : ℕ} (hroot : src.root = some p)
    (hp : IsConcat h p) :
    append h r src = .ok (⟨some h.length, r.last, r.size + src.size⟩,
      h ++ [.concat (some p) r.root none false]) := by
  obtain ⟨left, right, temp, tempLeft, hp⟩ := hp
  rw [append, hroot, appendNode, deref_eq hp]
  rfl

lemma ofCStr_holds {h : RopeHeap w} {s : CString w} (hs : s.chars.length + 1 < 2 ^ 31) :
    ∃ r h', ofCStr h s = .ok (r, h') ∧ Grows h h' ∧ r.Holds h' s.chars := by
  obtain ⟨htake, hsize⟩ := take_data s
  obtain ⟨hconcat, hd⟩ := denotes_textNodes hsize
    (show DenotesRight h none [] from rfl)
  rw [htake] at hd
  exact ⟨_, _, ofCStr_eq hs, grows_append _ _, _, rfl, hconcat, hd, rfl⟩

lemma ofView_holds (h : RopeHeap w) (s : StringView w) :
    Grows h (ofView h s).2 ∧ (ofView h s).1.Holds (ofView h s).2 s.chars := by
  obtain ⟨hconcat, hd⟩ := denotes_textNodes s.inside
    (show DenotesRight h none [] from rfl)
  refine ⟨grows_append _ _, _, rfl, hconcat, hd, ?_⟩
  rw [StringView.chars, List.length_take_of_le s.inside, BitVec.ofNat_toNat, BitVec.setWidth_eq]
  exact BitVec.zero_add s.size

lemma appendLen_holds {h : RopeHeap w} {r : Rope w} {text data : List UInt8} {len : BitVec w}
    (hr : r.Holds h text) (hlen : len.toNat ≤ data.length) :
    ∃ r' h', appendLen h r data len = .ok (r', h') ∧ Grows h h' ∧
      r'.Holds h' (text ++ data.take len.toNat) := by
  obtain ⟨p, hroot, hconcat, hd, hsize⟩ := hr
  have hright : DenotesRight h r.root text := by
    rw [hroot]
    exact ⟨hconcat, hd⟩
  obtain ⟨hconcat', hd'⟩ := denotes_textNodes hlen hright
  refine ⟨_, _, appendLen_eq h r data len, grows_append _ _, _, rfl, hconcat', hd', ?_⟩
  rw [List.length_append, List.length_take_of_le hlen, BitVec.ofNat_add, ← hsize,
    BitVec.ofNat_toNat, BitVec.setWidth_eq]

lemma append_holds {h : RopeHeap w} {r src : Rope w} {text text' : List UInt8}
    (hr : r.Holds h text) (hsrc : src.Holds h text') :
    ∃ r' h', append h r src = .ok (r', h') ∧ Grows h h' ∧ r'.Holds h' (text ++ text') := by
  obtain ⟨p, hroot, hconcat, hd, hsize⟩ := hr
  obtain ⟨q, hroot', hconcat', hd', hsize'⟩ := hsrc
  obtain ⟨n, hn⟩ := hd.exists_node
  obtain ⟨n', hn'⟩ := hd'.exists_node
  have hg := grows_append h [.concat (some q) r.root none false]
  have hnode : (h ++ [.concat (some q) (some p) none false])[h.length]? =
      some (.concat (some q) (some p) none false : RopeNode w) := by
    simp
  rw [hroot] at hg
  refine ⟨_, _, append_eq hroot' hconcat', by rwa [hroot], h.length, rfl, ?_, ?_, ?_⟩
  · rw [hroot]
    exact ⟨_, _, _, _, hnode⟩
  · rw [hroot]
    exact .both hnode (List.getElem?_eq_some_iff.1 hn').1 (List.getElem?_eq_some_iff.1 hn).1
      (hconcat.mono hg) (hd'.mono hg) (hd.mono hg)
  · rw [List.length_append, BitVec.ofNat_add, ← hsize, ← hsize']

lemma addAssignCStr_holds {h : RopeHeap w} {r : Rope w} {text : List UInt8} {s : CString w}
    (hr : r.Holds h text) (hs : s.chars.length + 1 < 2 ^ 31) :
    ∃ r' h', addAssignCStr h r s = .ok (r', h') ∧ Grows h h' ∧ r'.Holds h' (text ++ s.chars) := by
  obtain ⟨htake, hsize⟩ := take_data s
  obtain ⟨r', h', happend, hg, hr'⟩ := appendLen_holds hr hsize
  rw [htake] at hr'
  refine ⟨r', h', ?_, hg, hr'⟩
  rw [addAssignCStr, strlen_short hs, ← happend]
  simp only [bind, Except.bind, ofNat_succ_sub_one]

/-! ## Reading ropes -/

/-- `length`, `c_str` and `at` give the text. -/
structure Faithful (h : RopeHeap w) (r : Rope w) (text : List UInt8) : Prop where
  length_eq : r.length.toNat = text.length
  cStr_eq : ∀ fresh, ∃ h', cStr h r fresh = .ok (text ++ [0], h')
  at_eq : ∀ i, i < r.length → ∃ c, text[i.toNat]? = some c ∧ at_ h r i = .ok c

lemma at_holds {h : RopeHeap w} {r : Rope w} {text : List UInt8} {i : BitVec w}
    (hr : r.Holds h text) (hfits : text.length < 2 ^ w) (hi : i < r.length) :
    ∃ c, text[i.toNat]? = some c ∧ at_ h r i = .ok c := by
  obtain ⟨p, hroot, -, hd, hsize⟩ := hr
  have hlt : i.toNat < text.length := by
    rwa [length, hsize, BitVec.lt_def, toNat_ofNat_of_lt hfits] at hi
  obtain ⟨-, hhit⟩ := RopeAt.finds_of_denotes i hd (p + 1) 0 text.length
    (Nat.lt_succ_self p) (Nat.le_refl _) hfits hlt
  rw [Nat.sub_self, Nat.sub_zero] at hhit
  obtain ⟨c, indexSoFar, hc, hvisit⟩ := hhit (Nat.zero_le _)
  refine ⟨c, hc, ?_⟩
  rw [at_, hroot, hsize]
  simp only [hvisit, bind, Except.bind]
  rfl

/-- The new array of `c_str`. -/
lemma length_newArray {m : ℕ} (fresh : ℕ → UInt8) (hfits : m + 1 < 2 ^ w) :
    ((List.range (BitVec.ofNat w m + 1).toNat).map fresh).length = m + 1 := by
  have hadd : BitVec.ofNat w m + 1 = BitVec.ofNat w (m + 1) := (BitVec.ofNat_add m 1).symm
  rw [List.length_map, List.length_range, hadd, toNat_ofNat_of_lt hfits]

theorem cStr_holds {h : RopeHeap w} {r : Rope w} {text : List UInt8} (hr : r.Holds h text)
    (hfits : text.length + 1 < 2 ^ w) (fresh : ℕ → UInt8) :
    ∃ h', cStr h r fresh = .ok (text ++ [0], h') := by
  obtain ⟨p, hroot, -, hd, hsize⟩ := hr
  obtain ⟨n, hn⟩ := hd.exists_node
  have hlt : text.length < 2 ^ w := Nat.lt_of_succ_lt hfits
  -- the array is the room for the text and one byte
  have harray := length_newArray fresh hfits
  obtain ⟨junk, rest, hsplit, hjunk, hrest⟩ := RopeWalk.exists_split text [0]
    (by rw [harray, List.length_append, List.length_singleton])
  have hset := setTemp_eq none hn
  have hg : Grows h (h.set p (n.setTemp none)) := grows_set hn (n.shape_setTemp none)
  have hnode : (h.set p (n.setTemp none))[p]? = some (n.setTemp none) :=
    List.getElem?_set_self (List.getElem?_eq_some_iff.1 hn).1
  obtain ⟨k, h', hk, -, -, hloop⟩ := RopeWalk.writes_of_denotes hd _ hg _ [] junk rest hnode hjunk
    (by rwa [List.nil_append, hjunk])
  obtain ⟨fuel, hfuel⟩ : ∃ fuel, 4 * 2 ^ p = k + fuel := ⟨4 * 2 ^ p - k, by omega⟩
  have hend := hloop fuel
  rw [RopeNode.temp_setTemp, ← hfuel, List.nil_append, List.nil_append, hjunk] at hend
  have hcopy : copyInto (text ++ rest) text.length [0] 1 = .ok (text ++ [0]) := by
    have hend := RopeWalk.copyInto_eq text [] hrest (show 1 ≤ [(0 : UInt8)].length from Nat.le_refl 1)
    simpa using hend
  have hwalk : RopeWalk.cStr h (junk ++ rest) p (BitVec.ofNat w text.length) =
      .ok ⟨h', none, false, BitVec.ofNat w 0, text ++ rest⟩ := by
    rw [RopeWalk.cStr, hset]
    show RopeWalk.loop _ (4 * 2 ^ p) = _
    rw [hend]
    cases fuel <;> rfl
  refine ⟨h', ?_⟩
  simp only [cStr, hroot, hsize, hsplit, hwalk, bind, Except.bind, toNat_ofNat_of_lt hlt, hcopy]
  rfl

/-- Where `c_str` returns, the array has room for the NUL. -/
lemma cStr_keeps {h h' : RopeHeap w} {r : Rope w} {fresh : ℕ → UInt8} {ret : List UInt8}
    (hret : cStr h r fresh = .ok (ret, h')) :
    Grows h h' ∧ r.size.toNat + 1 ≤ (r.size + 1).toNat := by
  unfold cStr at hret
  split at hret
  · obtain ⟨ret', hcopy, hret⟩ := ok_of_bind hret
    cases hret
    have hroom := (RopeWalk.length_copyInto hcopy).2
    rw [List.length_map, List.length_range] at hroom
    exact ⟨Grows.refl _, hroom⟩
  · obtain ⟨s, hwalk, hret⟩ := ok_of_bind hret
    obtain ⟨ret', hcopy, hret⟩ := ok_of_bind hret
    obtain ⟨h₀, hset, hloop⟩ := ok_of_bind hwalk
    cases hret
    obtain ⟨hg, hlen⟩ := RopeWalk.loop_keeps hloop
    have hroom := (RopeWalk.length_copyInto hcopy).2
    rw [hlen, List.length_map, List.length_range] at hroom
    exact ⟨(grows_setTemp hset).trans hg, hroom⟩

/-- `c_str` returns only a text that a `size_t` can count with its NUL. -/
theorem fits_of_cStr {h h' : RopeHeap w} {r : Rope w} {text ret : List UInt8} {fresh : ℕ → UInt8}
    (hr : r.Holds h text) (hret : cStr h r fresh = .ok (ret, h')) : text.length + 1 < 2 ^ w := by
  obtain ⟨p, hroot, -, hd, hsize⟩ := hr
  obtain ⟨n, hn⟩ := hd.exists_node
  have hroom := (cStr_keeps hret).2
  have hend : (r.size + 1).toNat < 2 ^ w := (r.size + 1).isLt
  by_cases hlong : 2 ^ w ≤ text.length
  · exfalso
    -- the array has room for the wrapped size only
    obtain ⟨front, rest, hsplit, hfront⟩ : ∃ front rest,
        (List.range (r.size + 1).toNat).map fresh = front ++ rest ∧ front.length = r.size.toNat := by
      refine ⟨_, _, (List.take_append_drop r.size.toNat _).symm, ?_⟩
      rw [List.length_take, List.length_map, List.length_range]
      omega
    have hfits : (front ++ rest).length < 2 ^ w := by
      rwa [← hsplit, List.length_map, List.length_range]
    have hg : Grows h (h.set p (n.setTemp none)) := grows_set hn (n.shape_setTemp none)
    obtain ⟨k, hk, hloop⟩ := RopeWalk.overruns_of_denotes hd _ hg front rest (by omega) hfits
    obtain ⟨fuel, hfuel⟩ : ∃ fuel, 4 * 2 ^ p = k + fuel := ⟨4 * 2 ^ p - k, by omega⟩
    have hwalk : RopeWalk.cStr h (front ++ rest) p r.size = .error .outside := by
      have herror := hloop fuel
      rw [hfront, BitVec.ofNat_toNat, BitVec.setWidth_eq, ← hfuel] at herror
      rw [RopeWalk.cStr, setTemp_eq none hn]
      exact herror
    simp only [cStr, hroot, hsplit, hwalk, bind, Except.bind] at hret
    cases hret
  · rw [hsize, toNat_ofNat_of_lt (Nat.not_le.mp hlong)] at hroom
    rw [hsize] at hend
    omega

/-- A rope gives its text unless a `size_t` is too small for the text with its NUL. -/
theorem faithful_iff {h : RopeHeap w} {r : Rope w} {text : List UInt8} (hr : r.Holds h text) :
    r.Faithful h text ↔ text.length + 1 < 2 ^ w := by
  constructor
  · intro hf
    obtain ⟨h', hret⟩ := hf.cStr_eq fun _ => 0
    exact fits_of_cStr hr hret
  · intro hfits
    have hlt : text.length < 2 ^ w := Nat.lt_of_succ_lt hfits
    refine ⟨?_, cStr_holds hr hfits, fun i hi => at_holds hr hlt hi⟩
    obtain ⟨p, -, -, -, hsize⟩ := hr
    rw [length, hsize, toNat_ofNat_of_lt hlt]

end Rope

end UosioCdt.Core
