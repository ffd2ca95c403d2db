import Mathlib.Algebra.Group.Nat.Defs
import Mathlib.Data.List.Basic
import Mathlib.Tactic.Lemma

/-!
# `rope`

A rope points to a tree of nodes in the heap. Copies and appended ropes share the nodes, so the trees
of all ropes are one graph. `c_str` walks it with the fields `temp` and `temp_left` of the nodes.

The characters of a rope stand in its tree from the right to the left. A `size_t` has `w` bits.
-/

namespace UosioCdt.Core

variable {w : ℕ}

/-! ## Texts -/

/-- What a `const char*` points to: characters and the NUL behind them. -/
structure CString (w : ℕ) where
  chars : List UInt8
  nonzero : 0 ∉ chars
  fits : chars.length + 1 < 2 ^ w

/-- The memory from the pointer on. -/
def CString.data (s : CString w) : List UInt8 := s.chars ++ [0]

/-- A pointer and a length, as in `std::string_view`. -/
structure StringView (w : ℕ) where
  data : List UInt8
  size : BitVec w
  inside : size.toNat ≤ data.length

def StringView.chars (s : StringView w) : List UInt8 := s.data.take s.size.toNat

/-! ## Nodes -/

/-- `rope_node`: a `concat_t` or a `str_t`. A node has an address; `none` is the null pointer. -/
inductive RopeNode (w : ℕ) where
  | concat (left right temp : Option ℕ) (tempLeft : Bool)
  | str (cStr : List UInt8) (size : BitVec w) (temp : Option ℕ)
deriving DecidableEq

/-- The nodes that have been allocated, by address. None is ever freed. -/
abbrev RopeHeap (w : ℕ) := List (RopeNode w)

/-- Why a call does not return. -/
inductive RopeFault where
  /-- The counter of `strlen` passes the largest `int`. -/
  | intOverflow
  /-- An access that is not inside the array. -/
  | outside
  | dangling
  | badVariantAccess
  | check (msg : String)
  | unbound
  /-- The model does not go on. -/
  | fuel
deriving DecidableEq

/-- `n.temp = temp` -/
def RopeNode.setTemp (temp : Option ℕ) : RopeNode w → RopeNode w
  | .concat left right _ tempLeft => .concat left right temp tempLeft
  | .str cStr size _ => .str cStr size temp

namespace RopeHeap

/-- `*p` -/
def deref (h : RopeHeap w) (p : ℕ) : Except RopeFault (RopeNode w) :=
  match h[p]? with
  | some n => .ok n
  | none => .error .dangling

/-- `std::visit([&](const auto& n) { n.temp = temp; }, *p)` -/
def setTemp (h : RopeHeap w) (p : ℕ) (temp : Option ℕ) : Except RopeFault (RopeHeap w) := do
  let n ← deref h p
  return h.set p (n.setTemp temp)

end RopeHeap

/-! ## The walk of `c_str` -/

/-- `memcpy(buffer + off, src, size)` -/
def copyInto (buffer : List UInt8) (off : ℕ) (src : List UInt8) (size : ℕ) :
    Except RopeFault (List UInt8) :=
  if off + size ≤ buffer.length ∧ size ≤ src.length then
    .ok (buffer.take off ++ src.take size ++ buffer.drop (off + size))
  else .error .outside

/-- The variables of the loop, with the heap and the buffer. -/
structure RopeWalk (w : ℕ) where
  heap : RopeHeap w
  r : Option ℕ
  goingDown : Bool
  off : BitVec w
  buffer : List UInt8

namespace RopeWalk

/-- `c.temp_left = tempLeft`, the child's `temp = r`, `going_down = true` and `r = child`, where `c` is
the node at `r` with its other fields. -/
def visitChild (s : RopeWalk w) (r child : ℕ) (c : RopeNode w) : Except RopeFault (RopeWalk w) := do
  let heap ← RopeHeap.setTemp (s.heap.set r c) child (some r)
  return { s with heap, r := some child, goingDown := true }

/-- `going_down = false` and `r = temp`. -/
def goUp (s : RopeWalk w) (temp : Option ℕ) : RopeWalk w := { s with r := temp, goingDown := false }

/-- The body of the loop at the node `r`. -/
def step (s : RopeWalk w) (r : ℕ) : Except RopeFault (RopeWalk w) := do
  match s.goingDown, ← s.heap.deref r with
  | true, .concat (some left) right temp _ =>
    s.visitChild r left (.concat (some left) right temp true)
  | true, .concat none (some right) temp _ =>
    s.visitChild r right (.concat none (some right) temp false)
  | true, .concat none none temp _ => return s.goUp temp
  | true, .str cStr size temp =>
    let off := s.off - size
    let buffer ← copyInto s.buffer off.toNat cStr size.toNat
    return { s with off, buffer }.goUp temp
  | false, .concat left (some right) temp true =>
    s.visitChild r right (.concat left (some right) temp false)
  | false, .concat _ _ temp _ => return s.goUp temp
  | false, .str _ _ _ => throw .badVariantAccess

/-- `while (r)` -/
def loop (s : RopeWalk w) (fuel : ℕ) : Except RopeFault (RopeWalk w) :=
  match s.r, fuel with
  | none, _ => .ok s
  | some _, 0 => .error .fuel
  | some r, fuel + 1 => do loop (← s.step r) fuel

/-- The private `c_str`, from the node `r`. -/
def cStr (h : RopeHeap w) (buffer : List UInt8) (r : ℕ) (off : BitVec w) :
    Except RopeFault (RopeWalk w) := do
  let heap ← h.setTemp r none
  loop ⟨heap, some r, true, off, buffer⟩ (4 * 2 ^ r)

end RopeWalk

/-! ## Ropes -/

structure Rope (w : ℕ) where
  root : Option ℕ
  last : Option ℕ
  size : BitVec w
deriving DecidableEq

/-- The variables of the private `at`. -/
structure RopeAt (w : ℕ) where
  ret : UInt8
  indexSoFar : BitVec w
  stop : Bool

/-- The private `at`, from the node `rn`. -/
def RopeAt.visit (h : RopeHeap w) (index : BitVec w) :
    (fuel : ℕ) → (rn : ℕ) → RopeAt w → Except RopeFault (RopeAt w)
  | 0, _, _ => .error .fuel
  | fuel + 1, rn, s => do
    match ← h.deref rn with
    | .concat left right _ _ =>
      if s.stop then return s
      else
        let s ← match left with
          | some left => visit h index fuel left s
          | none => pure s
        match right with
          | some right => visit h index fuel right s
          | none => pure s
    | .str cStr size _ =>
      let indexSoFar := s.indexSoFar - size
      if indexSoFar ≤ index then
        match cStr[(index - indexSoFar).toNat]? with
        | some c => return ⟨c, indexSoFar, true⟩
        | none => throw .outside
      else return { s with indexSoFar }

namespace Rope

/-- `while (str[i++]);` from `i` on, where `str` is what follows in memory. -/
def strlenFrom (i : ℕ) : (str : List UInt8) → Except RopeFault ℕ
  | [] => .error .outside
  | c :: str =>
    if 2 ^ 31 ≤ i + 1 then .error .intOverflow
    else if c ≠ 0 then strlenFrom (i + 1) str
    else .ok (i + 1)

/-- `strlen`, which counts the NUL -/
def strlen (s : CString w) : Except RopeFault (BitVec w) := do
  return BitVec.ofNat w (← strlenFrom 0 s.data)

/-- `rope(const char* s)` -/
def ofCStr (h : RopeHeap w) (s : CString w) : Except RopeFault (Rope w × RopeHeap w) := do
  let size := (← strlen s) - 1
  let h' := h ++ [.str s.data size none, .concat (some h.length) none none false]
  return (⟨some (h.length + 1), some (h.length + 1), 0 + size⟩, h')

/-- `rope(std::string_view s)` -/
def ofView (h : RopeHeap w) (s : StringView w) : Rope w × RopeHeap w :=
  let h' := h ++ [.str s.data s.size none, .concat (some h.length) none none false]
  (⟨some (h.length + 1), none, 0 + s.size⟩, h')

/-- The private `append` -/
def appendNode (h : RopeHeap w) (r : Rope w) (rn : Option ℕ) (useLeft : Bool) :
    Except RopeFault (Rope w × RopeHeap w) :=
  match rn with
  | none => throw (.check "append should only allow concat nodes")
  | some p => do
    match ← h.deref p with
    | .str _ _ _ => throw (.check "append should only allow concat nodes")
    | .concat left _ temp tempLeft =>
      if useLeft then
        return ({ r with root := some h.length }, h ++ [.concat (some p) r.root none false])
      else return ({ r with root := some p }, h.set p (.concat left r.root temp tempLeft))

/-- `append(const char* s, size_t len)` -/
def appendLen (h : RopeHeap w) (r : Rope w) (s : List UInt8) (len : BitVec w) :
    Except RopeFault (Rope w × RopeHeap w) := do
  let h' := h ++ [.str s len none, .concat (some h.length) none none false]
  let (r, h') ← appendNode h' r (some (h.length + 1)) false
  return ({ r with size := r.size + len }, h')

/-- `append(const char (&s)[N])`, where `N` counts the NUL of a literal -/
def appendLiteral (h : RopeHeap w) (r : Rope w) (s : CString w) :
    Except RopeFault (Rope w × RopeHeap w) :=
  appendLen h r s.data (BitVec.ofNat w s.data.length)

/-- `append(const rope& r)` and `append(rope&& r)`, with `src` for the argument. It may be the rope
itself: its root is read before it changes, and its size only then. -/
def append (h : RopeHeap w) (r src : Rope w) : Except RopeFault (Rope w × RopeHeap w) := do
  let (r, h') ← appendNode h r src.root true
  return ({ r with size := r.size + src.size }, h')

/-- `operator+=(const char* s)` -/
def addAssignCStr (h : RopeHeap w) (r : Rope w) (s : CString w) :
    Except RopeFault (Rope w × RopeHeap w) := do
  appendLen h r s.data ((← strlen s) - 1)

/-- `operator+=` with a rope -/
def addAssign (h : RopeHeap w) (r src : Rope w) : Except RopeFault (Rope w × RopeHeap w) :=
  append h r src

/-- `operator+(rope lhs, const char* s)` -/
def addCStr (h : RopeHeap w) (lhs : Rope w) (s : CString w) :
    Except RopeFault (Rope w × RopeHeap w) :=
  addAssignCStr h lhs s

/-- `operator+` of two ropes -/
def add (h : RopeHeap w) (lhs rhs : Rope w) : Except RopeFault (Rope w × RopeHeap w) :=
  addAssign h lhs rhs

def length (r : Rope w) : BitVec w := r.size

/-- `at(size_t index)` -/
def at_ (h : RopeHeap w) (r : Rope w) (index : BitVec w) : Except RopeFault UInt8 :=
  match r.root with
  | none => .ok 0
  | some root => do
    let s ← RopeAt.visit h index (root + 1) root ⟨0, r.size, false⟩
    return s.ret

/-- `c_str()`. The new array has `size + 1` bytes, with anything in them. -/
def cStr (h : RopeHeap w) (r : Rope w) (fresh : ℕ → UInt8) :
    Except RopeFault (List UInt8 × RopeHeap w) := do
  let ret := (List.range (r.size + 1).toNat).map fresh
  match r.root with
  | none => return (← copyInto ret r.size.toNat [0] 1, h)
  | some root =>
    let s ← RopeWalk.cStr h ret root r.size
    return (← copyInto s.buffer r.size.toNat [0] 1, s.heap)

end Rope

end UosioCdt.Core
