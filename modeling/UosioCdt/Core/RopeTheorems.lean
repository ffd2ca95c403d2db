import Mathlib.Data.List.Basic
import UosioCdt.Core.Rope
import UosioCdt.Lib.Aborting

/-!
# The text of a rope

The tree at a node denotes a text. `c_str` writes into the nodes that it visits, but not into their
shape, and only behind it come new nodes: the text of a node never changes. The walk of a tree returns
to the node's `temp` and has then written the text in front of what had been written before.
-/

namespace UosioCdt.Core

open Aborting

variable {w : ℕ}

/-! ## Shapes -/

namespace RopeNode

/-- The node without the fields that `c_str` writes. -/
def shape : RopeNode w → RopeNode w
  | .concat left right _ _ => .concat left right none false
  | .str cStr size _ => .str cStr size none

def temp : RopeNode w → Option ℕ
  | .concat _ _ temp _ => temp
  | .str _ _ temp => temp

@[simp] lemma shape_setTemp (n : RopeNode w) (temp : Option ℕ) :
    (n.setTemp temp).shape = n.shape := by
  cases n <;> rfl

@[simp] lemma temp_setTemp (n : RopeNode w) (temp : Option ℕ) : (n.setTemp temp).temp = temp := by
  cases n <;> rfl

lemma eq_concat_of_shape {n : RopeNode w} {left right t : Option ℕ} {tempLeft : Bool}
    (h : n.shape = (concat left right t tempLeft : RopeNode w).shape) :
    ∃ t' tempLeft', n = .concat left right t' tempLeft' := by
  cases n with
  | concat left' right' t' tempLeft' =>
    cases h
    exact ⟨t', tempLeft', rfl⟩
  | str cStr size t' => cases h

lemma eq_str_of_shape {n : RopeNode w} {cStr : List UInt8} {size : BitVec w} {t : Option ℕ}
    (h : n.shape = (str cStr size t).shape) : ∃ t', n = .str cStr size t' := by
  cases n with
  | concat left' right' t' tempLeft' => cases h
  | str cStr' size' t' =>
    cases h
    exact ⟨t', rfl⟩

end RopeNode

namespace RopeHeap

/-- The nodes of `h` are in `h'` with the same shapes. -/
def Grows (h h' : RopeHeap w) : Prop :=
  ∀ (p : ℕ) (n : RopeNode w), h[p]? = some n →
    ∃ n' : RopeNode w, h'[p]? = some n' ∧ n'.shape = n.shape

lemma Grows.refl (h : RopeHeap w) : Grows h h := fun _ n hn => ⟨n, hn, rfl⟩

lemma Grows.trans {h₁ h₂ h₃ : RopeHeap w} (h₁₂ : Grows h₁ h₂) (h₂₃ : Grows h₂ h₃) :
    Grows h₁ h₃ := by
  intro p n hn
  obtain ⟨n', hn', hshape⟩ := h₁₂ p n hn
  obtain ⟨n'', hn'', hshape'⟩ := h₂₃ p n' hn'
  exact ⟨n'', hn'', hshape'.trans hshape⟩

lemma grows_append (h ns : RopeHeap w) : Grows h (h ++ ns) := fun _ n hn =>
  ⟨n, List.getElem?_append_left (List.getElem?_eq_some_iff.1 hn).1 ▸ hn, rfl⟩

lemma grows_set {h : RopeHeap w} {p : ℕ} {m n : RopeNode w} (hm : h[p]? = some m)
    (hshape : n.shape = m.shape) : Grows h (h.set p n) := by
  intro q k hk
  by_cases hpq : p = q
  · subst hpq
    obtain rfl : m = k := Option.some.inj (hm.symm.trans hk)
    exact ⟨n, List.getElem?_set_self (List.getElem?_eq_some_iff.1 hm).1, hshape⟩
  · exact ⟨k, (List.getElem?_set_ne hpq).trans hk, rfl⟩

lemma Grows.concat {h h' : RopeHeap w} {p : ℕ} {left right temp : Option ℕ} {tempLeft : Bool}
    (hg : Grows h h') (hp : h[p]? = some (.concat left right temp tempLeft)) :
    ∃ temp' tempLeft', h'[p]? = some (.concat left right temp' tempLeft') := by
  obtain ⟨n, hn, hshape⟩ := hg p _ hp
  obtain ⟨temp', tempLeft', rfl⟩ := RopeNode.eq_concat_of_shape hshape
  exact ⟨temp', tempLeft', hn⟩

lemma Grows.str {h h' : RopeHeap w} {p : ℕ} {cStr : List UInt8} {size : BitVec w}
    {temp : Option ℕ} (hg : Grows h h') (hp : h[p]? = some (.str cStr size temp)) :
    ∃ temp', h'[p]? = some (.str cStr size temp') := by
  obtain ⟨n, hn, hshape⟩ := hg p _ hp
  obtain ⟨temp', rfl⟩ := RopeNode.eq_str_of_shape hshape
  exact ⟨temp', hn⟩

lemma deref_eq {h : RopeHeap w} {p : ℕ} {n : RopeNode w} (hn : h[p]? = some n) :
    h.deref p = .ok n := by
  rw [deref, hn]

lemma setTemp_eq {h : RopeHeap w} {p : ℕ} {n : RopeNode w} (temp : Option ℕ)
    (hn : h[p]? = some n) : h.setTemp p temp = .ok (h.set p (n.setTemp temp)) := by
  rw [setTemp, deref_eq hn]
  rfl

lemma deref_ok {h : RopeHeap w} {p : ℕ} {n : RopeNode w} (hn : h.deref p = .ok n) :
    h[p]? = some n := by
  unfold deref at hn
  split at hn
  · cases hn
    assumption
  · cases hn

/-- Setting a `temp` keeps the shapes. -/
lemma grows_setTemp {h h' : RopeHeap w} {p : ℕ} {temp : Option ℕ}
    (hset : h.setTemp p temp = .ok h') : Grows h h' := by
  obtain ⟨n, hn, hset⟩ := ok_of_bind hset
  cases hset
  exact grows_set (deref_ok hn) (n.shape_setTemp temp)

/-! ## The text at a node -/

def IsConcat (h : RopeHeap w) (p : ℕ) : Prop :=
  ∃ left right temp tempLeft, h[p]? = some (.concat left right temp tempLeft)

/-- The tree at the node `p` denotes a text. Its parts are older than the node, and what stands to the
right is a `concat_t`. -/
inductive Denotes (h : RopeHeap w) : ℕ → List UInt8 → Prop where
  | str {p : ℕ} {cStr : List UInt8} {size : BitVec w} {temp : Option ℕ} :
    h[p]? = some (.str cStr size temp) → size.toNat ≤ cStr.length →
      Denotes h p (cStr.take size.toNat)
  | left {p left : ℕ} {temp : Option ℕ} {tempLeft : Bool} {text : List UInt8} :
    h[p]? = some (.concat (some left) none temp tempLeft) → left < p → Denotes h left text →
      Denotes h p text
  | both {p left right : ℕ} {temp : Option ℕ} {tempLeft : Bool} {text before : List UInt8} :
    h[p]? = some (.concat (some left) (some right) temp tempLeft) → left < p → right < p →
      IsConcat h right → Denotes h left text → Denotes h right before →
      Denotes h p (before ++ text)

lemma IsConcat.mono {h h' : RopeHeap w} {p : ℕ} (hp : IsConcat h p) (hg : Grows h h') :
    IsConcat h' p := by
  obtain ⟨left, right, temp, tempLeft, hp⟩ := hp
  obtain ⟨temp', tempLeft', hn⟩ := hg.concat hp
  exact ⟨left, right, temp', tempLeft', hn⟩

/-- The text of a node never changes. -/
lemma Denotes.mono {h h' : RopeHeap w} {p : ℕ} {text : List UInt8} (hd : Denotes h p text)
    (hg : Grows h h') : Denotes h' p text := by
  induction hd with
  | @str p cStr size temp hp hsize =>
    obtain ⟨temp', hn⟩ := hg.str hp
    exact .str hn hsize
  | @left p left temp tempLeft text hp hlt _ ih =>
    obtain ⟨temp', tempLeft', hn⟩ := hg.concat hp
    exact .left hn hlt ih
  | @both p left right temp tempLeft text before hp hleft hright hconcat _ _ ih ih' =>
    obtain ⟨temp', tempLeft', hn⟩ := hg.concat hp
    exact .both hn hleft hright (hconcat.mono hg) ih ih'

lemma Denotes.exists_node {h : RopeHeap w} {p : ℕ} {text : List UInt8} (hd : Denotes h p text) :
    ∃ n, h[p]? = some n := by
  cases hd with
  | str hp _ => exact ⟨_, hp⟩
  | left hp _ _ => exact ⟨_, hp⟩
  | both hp _ _ _ _ _ => exact ⟨_, hp⟩

end RopeHeap

/-! ## The walk -/

namespace RopeWalk

open RopeHeap

lemma copyInto_eq (front rest : List UInt8) {junk src : List UInt8} {size : ℕ}
    (hjunk : junk.length = size) (hsize : size ≤ src.length) :
    copyInto (front ++ junk ++ rest) front.length src size =
      .ok (front ++ src.take size ++ rest) := by
  have hfit : front.length + size ≤ (front ++ junk ++ rest).length := by
    rw [List.length_append, List.length_append]
    omega
  have hdrop : front.length + size = (front ++ junk).length := by rw [List.length_append, hjunk]
  rw [copyInto, if_pos ⟨hfit, hsize⟩, hdrop, List.drop_left, List.append_assoc front,
    List.take_left]

/-- From the node at `p` the loop writes the text in front of `rest` and goes up to the node's `temp`.
It changes no node behind `p`. -/
def Writes (heap : RopeHeap w) (p : ℕ) (text : List UInt8) : Prop :=
  ∀ (n : RopeNode w) (front junk rest : List UInt8), heap[p]? = some n →
    junk.length = text.length → (front ++ junk).length < 2 ^ w →
    ∃ k heap', k + 3 ≤ 4 * 2 ^ p ∧ Grows heap heap' ∧ (∀ q : ℕ, p < q → heap'[q]? = heap[q]?) ∧
      ∀ fuel, loop ⟨heap, some p, true, BitVec.ofNat w (front ++ junk).length,
          front ++ junk ++ rest⟩ (k + fuel) =
        loop ⟨heap', n.temp, false, BitVec.ofNat w front.length, front ++ text ++ rest⟩ fuel

/-- The loop goes to a child, whose `temp` is the node. -/
lemma visitChild_eq {heap : RopeHeap w} {r child : ℕ} {c old n : RopeNode w} (goingDown : Bool)
    (off : BitVec w) (buffer : List UInt8) (hr : heap[r]? = some old) (hc : c.shape = old.shape)
    (hlt : child < r) (hn : heap[child]? = some n) :
    ∃ heap', visitChild ⟨heap, some r, goingDown, off, buffer⟩ r child c =
        .ok ⟨heap', some child, true, off, buffer⟩ ∧
      Grows heap heap' ∧ heap'[child]? = some (n.setTemp (some r)) ∧ heap'[r]? = some c ∧
      ∀ q : ℕ, r < q → heap'[q]? = heap[q]? := by
  have hn' : (heap.set r c)[child]? = some n := by
    rw [List.getElem?_set_ne (Nat.ne_of_gt hlt), hn]
  have hset : Grows heap (heap.set r c) := grows_set hr hc
  have htemp : Grows (heap.set r c) ((heap.set r c).set child (n.setTemp (some r))) :=
    grows_set hn' (n.shape_setTemp _)
  refine ⟨(heap.set r c).set child (n.setTemp (some r)), ?_, hset.trans htemp, ?_, ?_, fun q hq => ?_⟩
  · rw [visitChild, setTemp_eq _ hn']
    rfl
  · exact List.getElem?_set_self (List.getElem?_eq_some_iff.1 hn').1
  · rw [List.getElem?_set_ne (Nat.ne_of_lt hlt),
      List.getElem?_set_self (List.getElem?_eq_some_iff.1 hr).1]
  · rw [List.getElem?_set_ne (by omega), List.getElem?_set_ne (Nat.ne_of_lt hq)]

/-- A child is visited, and the loop is back at the node, with the `temp_left` that was set. -/
lemma visitChild_loop {heap : RopeHeap w} {r child : ℕ} {c old n : RopeNode w} (goingDown : Bool)
    {text : List UInt8} (front rest : List UInt8) {junk : List UInt8}
    (hwrites : ∀ heap', Grows heap heap' → Writes heap' child text)
    (hr : heap[r]? = some old) (hc : c.shape = old.shape) (hlt : child < r)
    (hn : heap[child]? = some n) (hjunk : junk.length = text.length)
    (hfits : (front ++ junk).length < 2 ^ w) :
    ∃ k heap', k + 3 ≤ 4 * 2 ^ child ∧ Grows heap heap' ∧ heap'[r]? = some c ∧
      (∀ q : ℕ, r < q → heap'[q]? = heap[q]?) ∧
      ∀ fuel, (visitChild ⟨heap, some r, goingDown, BitVec.ofNat w (front ++ junk).length,
          front ++ junk ++ rest⟩ r child c >>= fun s => s.loop (k + fuel)) =
        loop ⟨heap', some r, false, BitVec.ofNat w front.length, front ++ text ++ rest⟩ fuel := by
  obtain ⟨heap₁, hvisit, hg₁, hchild, hr₁, hframe₁⟩ := visitChild_eq goingDown
    (BitVec.ofNat w (front ++ junk).length) (front ++ junk ++ rest) hr hc hlt hn
  obtain ⟨k, heap', hk, hg, hframe, hloop⟩ := hwrites _ hg₁ _ front junk rest hchild hjunk hfits
  refine ⟨k, heap', hk, hg₁.trans hg, ?_, fun q hq => ?_, fun fuel => ?_⟩
  · rw [hframe r hlt, hr₁]
  · rw [hframe q (Nat.lt_trans hlt hq), hframe₁ q hq]
  · rw [hvisit]
    rw [RopeNode.temp_setTemp] at hloop
    exact hloop fuel

/-- One iteration. -/
lemma loop_succ {heap : RopeHeap w} {r : ℕ} {goingDown : Bool} {off : BitVec w}
    {buffer : List UInt8} {fuel : ℕ} :
    loop ⟨heap, some r, goingDown, off, buffer⟩ (fuel + 1) =
      step ⟨heap, some r, goingDown, off, buffer⟩ r >>= fun s => s.loop fuel := rfl

lemma step_down_left {heap : RopeHeap w} {p left : ℕ} {right temp : Option ℕ} {tempLeft : Bool}
    {off : BitVec w} {buffer : List UInt8}
    (hp : heap[p]? = some (.concat (some left) right temp tempLeft)) :
    step ⟨heap, some p, true, off, buffer⟩ p =
      visitChild ⟨heap, some p, true, off, buffer⟩ p left (.concat (some left) right temp true) := by
  rw [step, deref_eq hp]
  rfl

lemma step_down_str {heap : RopeHeap w} {p : ℕ} {cStr : List UInt8} {size off : BitVec w}
    {temp : Option ℕ} {buffer buffer' : List UInt8} (hp : heap[p]? = some (.str cStr size temp))
    (hcopy : copyInto buffer (off - size).toNat cStr size.toNat = .ok buffer') :
    step ⟨heap, some p, true, off, buffer⟩ p = .ok ⟨heap, temp, false, off - size, buffer'⟩ := by
  rw [step, deref_eq hp]
  show (copyInto buffer (off - size).toNat cStr size.toNat >>= _) = _
  rw [hcopy]
  rfl

lemma step_up_right {heap : RopeHeap w} {p right : ℕ} {left temp : Option ℕ} {off : BitVec w}
    {buffer : List UInt8} (hp : heap[p]? = some (.concat left (some right) temp true)) :
    step ⟨heap, some p, false, off, buffer⟩ p =
      visitChild ⟨heap, some p, false, off, buffer⟩ p right
        (.concat left (some right) temp false) := by
  rw [step, deref_eq hp]
  rfl

/-- Both parts of the node have been visited. -/
lemma step_up {heap : RopeHeap w} {p : ℕ} {left right temp : Option ℕ} {tempLeft : Bool}
    {off : BitVec w} {buffer : List UInt8}
    (hp : heap[p]? = some (.concat left right temp tempLeft))
    (hdone : right = none ∨ tempLeft = false) :
    step ⟨heap, some p, false, off, buffer⟩ p = .ok ⟨heap, temp, false, off, buffer⟩ := by
  rw [step, deref_eq hp]
  obtain rfl | rfl := hdone
  · rfl
  · cases right <;> rfl

/-- The offset in front of the characters of a `str_t`. -/
lemma ofNat_sub (front : List UInt8) {junk : List UInt8} {size : BitVec w}
    (hjunk : junk.length = size.toNat) :
    BitVec.ofNat w (front ++ junk).length - size = BitVec.ofNat w front.length := by
  rw [List.length_append, hjunk, BitVec.ofNat_add, BitVec.ofNat_toNat, BitVec.setWidth_eq,
    BitVec.add_sub_cancel]

lemma toNat_ofNat_length {front : List UInt8} (hfits : front.length < 2 ^ w) :
    (BitVec.ofNat w front.length).toNat = front.length := by
  rw [BitVec.toNat_ofNat, Nat.mod_eq_of_lt hfits]

/-- The room for the text of a node is the room for its two parts. -/
lemma exists_split (before text : List UInt8) {junk : List UInt8}
    (hjunk : junk.length = (before ++ text).length) :
    ∃ junk' junk'', junk = junk' ++ junk'' ∧ junk'.length = before.length ∧
      junk''.length = text.length := by
  rw [List.length_append] at hjunk
  refine ⟨junk.take before.length, junk.drop before.length, (List.take_append_drop _ _).symm, ?_, ?_⟩
  · rw [List.length_take]
    omega
  · rw [List.length_drop]
    omega

/-- Twice the steps of a child are enough for its parent. -/
lemma steps_lt {child p : ℕ} (hlt : child < p) : 2 * (4 * 2 ^ child) ≤ 4 * 2 ^ p := by
  have hpow : 2 ^ (child + 1) ≤ 2 ^ p := Nat.pow_le_pow_right (by decide) hlt
  rw [Nat.pow_succ] at hpow
  omega

/-- The walk of a tree writes its text. -/
theorem writes_of_denotes {h : RopeHeap w} {p : ℕ} {text : List UInt8} (hd : Denotes h p text) :
    ∀ heap, Grows h heap → Writes heap p text := by
  induction hd with
  | @str p cStr size temp hp hsize =>
    intro heap hg n front junk rest hn hjunk hfits
    obtain ⟨temp', hn'⟩ := hg.str hp
    obtain rfl := Option.some.inj (hn.symm.trans hn')
    rw [List.length_take_of_le hsize] at hjunk
    have hoff := ofNat_sub front hjunk
    have hfront : front.length < 2 ^ w := by
      rw [List.length_append] at hfits
      omega
    have hcopy := copyInto_eq front rest hjunk hsize
    have hpos : 0 < 2 ^ p := Nat.two_pow_pos p
    refine ⟨1, heap, by omega, Grows.refl heap, fun _ _ => rfl, fun fuel => ?_⟩
    rw [Nat.add_comm 1, loop_succ, step_down_str hn' (by rwa [hoff, toNat_ofNat_length hfront]), hoff]
    rfl
  | @left p left temp tempLeft text hp hlt hd ih =>
    intro heap hg n front junk rest hn hjunk hfits
    obtain ⟨temp', tempLeft', hn'⟩ := hg.concat hp
    obtain rfl := Option.some.inj (hn.symm.trans hn')
    obtain ⟨m, hm⟩ := (hd.mono hg).exists_node
    obtain ⟨k, heap', hk, hg', hp', hframe, hloop⟩ :=
      visitChild_loop true front rest (fun heap' hg' => ih heap' (hg.trans hg')) hn'
        (c := .concat (some left) none temp' true) rfl hlt hm hjunk hfits
    have hsteps := steps_lt hlt
    refine ⟨1 + k + 1, heap', by omega, hg', hframe, fun fuel => ?_⟩
    rw [show 1 + k + 1 + fuel = k + (fuel + 1) + 1 by omega, loop_succ, step_down_left hn',
      hloop, loop_succ, step_up hp' (.inl rfl)]
    rfl
  | @both p left right temp tempLeft text before hp hleft hright hconcat hd hd' ih ih' =>
    intro heap hg n front junk rest hn hjunk hfits
    obtain ⟨temp', tempLeft', hn'⟩ := hg.concat hp
    obtain rfl := Option.some.inj (hn.symm.trans hn')
    obtain ⟨junk', junk'', rfl, hjunk', hjunk''⟩ := exists_split before text hjunk
    obtain ⟨m, hm⟩ := (hd.mono hg).exists_node
    -- the left part goes to the end of the room
    obtain ⟨k, heap', hk, hg', hp', hframe, hloop⟩ :=
      visitChild_loop true (front ++ junk') rest
        (fun heap' hg' => ih heap' (hg.trans hg')) hn'
        (c := .concat (some left) (some right) temp' true) rfl hleft hm hjunk''
        (by rwa [List.append_assoc])
    obtain ⟨m', hm'⟩ := (hd'.mono (hg.trans hg')).exists_node
    have hfits' : (front ++ junk').length < 2 ^ w := by
      rw [← List.append_assoc, List.length_append] at hfits
      omega
    -- and the right part in front of it
    obtain ⟨k', heap'', hk', hg'', hp'', hframe', hloop'⟩ :=
      visitChild_loop false front (text ++ rest)
        (fun heap'' hg'' => ih' heap'' ((hg.trans hg').trans hg'')) hp'
        (c := .concat (some left) (some right) temp' false) rfl hright hm' hjunk' hfits'
    have hsteps := steps_lt hleft
    have hsteps' := steps_lt hright
    refine ⟨1 + k + 1 + k' + 1, heap'', by omega, hg'.trans hg'', fun q hq => ?_, fun fuel => ?_⟩
    · rw [hframe' q hq, hframe q hq]
    · rw [show 1 + k + 1 + k' + 1 + fuel = k + (k' + (fuel + 1) + 1) + 1 by omega, loop_succ,
        step_down_left hn', ← List.append_assoc front, hloop, loop_succ, step_up_right hp',
        List.append_assoc _ text, hloop', loop_succ, step_up hp'' (.inr rfl),
        ← List.append_assoc _ text, ← List.append_assoc front]
      rfl

/-! ## Texts that are too long -/

/-- The room in front of `rest` is too small for the text, and the loop writes outside the buffer. -/
def Overruns (heap : RopeHeap w) (p : ℕ) (text : List UInt8) : Prop :=
  ∀ front rest : List UInt8, front.length < text.length → (front ++ rest).length < 2 ^ w →
    ∃ k, k + 3 ≤ 4 * 2 ^ p ∧ ∀ fuel, loop ⟨heap, some p, true, BitVec.ofNat w front.length,
      front ++ rest⟩ (k + fuel) = .error .outside

lemma visitChild_overruns {heap : RopeHeap w} {r child : ℕ} {c old n : RopeNode w}
    (goingDown : Bool) {text : List UInt8} (front rest : List UInt8)
    (hover : ∀ heap', Grows heap heap' → Overruns heap' child text) (hr : heap[r]? = some old)
    (hc : c.shape = old.shape) (hlt : child < r) (hn : heap[child]? = some n)
    (hshort : front.length < text.length) (hfits : (front ++ rest).length < 2 ^ w) :
    ∃ k, k + 3 ≤ 4 * 2 ^ child ∧
      ∀ fuel, (visitChild ⟨heap, some r, goingDown, BitVec.ofNat w front.length, front ++ rest⟩ r
        child c >>= fun s => s.loop (k + fuel)) = .error .outside := by
  obtain ⟨heap₁, hvisit, hg₁, -, -, -⟩ := visitChild_eq goingDown
    (BitVec.ofNat w front.length) (front ++ rest) hr hc hlt hn
  obtain ⟨k, hk, hloop⟩ := hover _ hg₁ front rest hshort hfits
  refine ⟨k, hk, fun fuel => ?_⟩
  rw [hvisit]
  exact hloop fuel

/-- The offset wraps below zero. -/
lemma copyInto_outside {front rest src : List UInt8} {size : BitVec w}
    (hshort : front.length < size.toNat) (hfits : (front ++ rest).length < 2 ^ w) :
    copyInto (front ++ rest) (BitVec.ofNat w front.length - size).toNat src size.toNat =
      .error .outside := by
  have hsize : size.toNat < 2 ^ w := size.isLt
  have hfront := toNat_ofNat_length (Nat.lt_trans hshort hsize)
  have hoff : (BitVec.ofNat w front.length - size).toNat = 2 ^ w - size.toNat + front.length := by
    rw [BitVec.toNat_sub, hfront, Nat.mod_eq_of_lt (by omega)]
  rw [copyInto, if_neg (by rw [hoff]; omega)]

theorem overruns_of_denotes {h : RopeHeap w} {p : ℕ} {text : List UInt8} (hd : Denotes h p text) :
    ∀ heap, Grows h heap → Overruns heap p text := by
  induction hd with
  | @str p cStr size temp hp hsize =>
    intro heap hg front rest hshort hfits
    obtain ⟨temp', hn'⟩ := hg.str hp
    rw [List.length_take_of_le hsize] at hshort
    have hpos : 0 < 2 ^ p := Nat.two_pow_pos p
    refine ⟨1, by omega, fun fuel => ?_⟩
    rw [Nat.add_comm 1, loop_succ, step, deref_eq hn']
    show (copyInto (front ++ rest) (BitVec.ofNat w front.length - size).toNat cStr size.toNat >>= _)
      >>= _ = _
    rw [copyInto_outside hshort hfits]
    rfl
  | @left p left temp tempLeft text hp hlt hd ih =>
    intro heap hg front rest hshort hfits
    obtain ⟨temp', tempLeft', hn'⟩ := hg.concat hp
    obtain ⟨m, hm⟩ := (hd.mono hg).exists_node
    obtain ⟨k, hk, hloop⟩ := visitChild_overruns true front rest
      (fun heap' hg' => ih heap' (hg.trans hg')) hn' (c := .concat (some left) none temp' true) rfl
      hlt hm hshort hfits
    have hsteps := steps_lt hlt
    refine ⟨k + 1, by omega, fun fuel => ?_⟩
    rw [show k + 1 + fuel = k + fuel + 1 by omega, loop_succ, step_down_left hn', hloop]
  | @both p left right temp tempLeft text before hp hleft hright hconcat hd hd' ih ih' =>
    intro heap hg front rest hshort hfits
    obtain ⟨temp', tempLeft', hn'⟩ := hg.concat hp
    obtain ⟨m, hm⟩ := (hd.mono hg).exists_node
    have hsteps := steps_lt hleft
    have hsteps' := steps_lt hright
    by_cases hroom : front.length < text.length
    · obtain ⟨k, hk, hloop⟩ := visitChild_overruns true front rest
        (fun heap' hg' => ih heap' (hg.trans hg')) hn'
        (c := .concat (some left) (some right) temp' true) rfl hleft hm hroom hfits
      refine ⟨k + 1, by omega, fun fuel => ?_⟩
      rw [show k + 1 + fuel = k + fuel + 1 by omega, loop_succ, step_down_left hn', hloop]
    · -- the left part finds room, and too little is left for the right one
      rw [List.length_append] at hshort
      have hroom' : front.length = (front.take (front.length - text.length) ++ text).length := by
        rw [List.length_append, List.length_take]
        omega
      obtain ⟨front', junk, rfl, hfront', hjunk⟩ := exists_split _ text hroom'
      rw [List.length_append] at hshort hfits
      obtain ⟨k, heap', hk, hg', hp', -, hloop⟩ :=
        visitChild_loop true front' rest
          (fun heap' hg' => writes_of_denotes hd heap' (hg.trans hg')) hn'
          (c := .concat (some left) (some right) temp' true) rfl hleft hm hjunk (by omega)
      obtain ⟨m', hm'⟩ := (hd'.mono (hg.trans hg')).exists_node
      obtain ⟨k', hk', hloop'⟩ := visitChild_overruns false front' (text ++ rest)
        (fun heap'' hg'' => ih' heap'' ((hg.trans hg').trans hg'')) hp'
        (c := .concat (some left) (some right) temp' false) rfl hright hm' (by omega) (by
          rw [List.length_append, List.length_append]
          rw [List.length_append] at hfits
          omega)
      refine ⟨1 + k + 1 + k', by omega, fun fuel => ?_⟩
      rw [show 1 + k + 1 + k' + fuel = k + (k' + fuel + 1) + 1 by omega, loop_succ,
        step_down_left hn', hloop, loop_succ, step_up_right hp', List.append_assoc front', hloop']

/-! ## What any walk keeps -/

lemma length_copyInto {buffer buffer' src : List UInt8} {off size : ℕ}
    (h : copyInto buffer off src size = .ok buffer') :
    buffer'.length = buffer.length ∧ off + size ≤ buffer.length := by
  unfold copyInto at h
  split at h
  · rename_i hfit
    obtain ⟨hfit, hsize⟩ := hfit
    cases h
    refine ⟨?_, hfit⟩
    rw [List.length_append, List.length_append, List.length_take_of_le (by omega),
      List.length_take_of_le hsize, List.length_drop]
    omega
  · cases h

/-- A walk changes neither the shapes nor the size of the buffer. -/
def Keeps (s s' : RopeWalk w) : Prop :=
  Grows s.heap s'.heap ∧ s'.buffer.length = s.buffer.length

lemma visitChild_keeps {s s' : RopeWalk w} {r child : ℕ} {c old : RopeNode w}
    (h : s.visitChild r child c = .ok s') (hr : s.heap[r]? = some old) (hc : c.shape = old.shape) :
    Keeps s s' := by
  obtain ⟨heap, hheap, h⟩ := ok_of_bind h
  cases h
  exact ⟨(grows_set hr hc).trans (grows_setTemp hheap), rfl⟩

lemma step_keeps {s s' : RopeWalk w} {r : ℕ} (h : s.step r = .ok s') : Keeps s s' := by
  obtain ⟨n, hn, h⟩ := ok_of_bind h
  have hr := deref_ok hn
  split at h
  · exact visitChild_keeps h hr rfl
  · exact visitChild_keeps h hr rfl
  · cases h
    exact ⟨Grows.refl _, rfl⟩
  · obtain ⟨buffer, hcopy, h⟩ := ok_of_bind h
    cases h
    exact ⟨Grows.refl _, (length_copyInto hcopy).1⟩
  · exact visitChild_keeps h hr rfl
  · cases h
    exact ⟨Grows.refl _, rfl⟩
  · cases h

lemma loop_keeps {s s' : RopeWalk w} {fuel : ℕ} (h : s.loop fuel = .ok s') : Keeps s s' := by
  fun_induction loop s fuel with
  | case1 s fuel hr =>
    cases h
    exact ⟨Grows.refl _, rfl⟩
  | case2 s r hr => cases h
  | case3 s r hr fuel ih =>
    obtain ⟨t, ht, h⟩ := ok_of_bind h
    obtain ⟨hg, hlen⟩ := step_keeps ht
    obtain ⟨hg', hlen'⟩ := ih t h
    exact ⟨hg.trans hg', hlen'.trans hlen⟩

end RopeWalk

end UosioCdt.Core
