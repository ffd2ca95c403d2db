import Mathlib.Algebra.Group.Nat.Defs
import Mathlib.Data.UInt
import Mathlib.Tactic.Lemma

/-!
# The bump allocator

`dsmalloc` of `simple_malloc.cpp` on wasm32. It never frees: every block begins where the last one
ends. The host grants or refuses the pages that a call asks for.
-/

namespace UosioCdt.Malloc

/-- `align` -/
def align (ptr : UInt32) (alignAmt : UInt8) : UInt32 :=
  (ptr + alignAmt.toUInt32 - 1) &&& ~~~(alignAmt.toUInt32 - 1)

/-- `dsmalloc` -/
structure Dsmalloc where
  heap : UInt32
  lastPtr : UInt32
  nextPage : UInt32
deriving DecidableEq, Repr

/-- The allocator, and the pages that the memory has. -/
structure Bump where
  dsmalloc : Dsmalloc
  pages : ℕ
deriving DecidableEq, Repr

/-- The most pages of a memory. -/
def maxPages : ℕ := 65536

/-- `__builtin_wasm_grow_memory`: the pages before, or -1 when the host refuses. -/
def growMemory (pages : ℕ) (n : UInt32) (granted : Bool) : UInt32 × ℕ :=
  if granted ∧ pages + n.toNat ≤ maxPages then (UInt32.ofNat pages, pages + n.toNat)
  else (-1, pages)

namespace Bump

/-- The constructor; `heapBase` is the word at address 0. -/
def start (heapBase : UInt32) (pages : ℕ) : Bump where
  dsmalloc := ⟨align heapBase 8, align heapBase 8, UInt32.ofNat pages⟩
  pages := pages

/-- `operator()`: the block and the state behind it, or `none` when the check fails. -/
def call (s : Bump) (sz : UInt32) (alignAmt : UInt8) (granted : Bool) : Option (UInt32 × Bump) :=
  if sz = 0 then some (0, s)
  else
    let ret := s.dsmalloc.lastPtr
    let lastPtr := align (s.dsmalloc.lastPtr + sz) alignAmt
    let pagesToAlloc := sz >>> 16
    let nextPage := s.dsmalloc.nextPage + pagesToAlloc
    -- one page more when the block ends in a page that is not there
    let more := decide (nextPage <<< 16 ≤ lastPtr)
    let nextPage := if more then nextPage + 1 else nextPage
    let pagesToAlloc := if more then pagesToAlloc + 1 else pagesToAlloc
    -- asked for even when it is no page
    let grown := growMemory s.pages pagesToAlloc granted
    if grown.1 ≠ -1 then some (ret, ⟨⟨s.dsmalloc.heap, lastPtr, nextPage⟩, grown.2⟩) else none

end Bump

/-! ## Runs -/

/-- A call with the default alignment: the size, and whether the host grants pages then. -/
structure Request where
  size : UInt32
  granted : Bool
deriving DecidableEq, Repr

/-- A block that was returned. -/
structure Extent where
  ptr : UInt32
  size : UInt32
deriving DecidableEq, Repr

namespace Bump

def step (s : Bump) (r : Request) : Option (UInt32 × Bump) := s.call r.size 8 r.granted

/-- The blocks are aligned, lie inside the memory and do not overlap, and the allocator knows how
much memory there is. -/
structure Safe (s : Bump) (blocks : List Extent) : Prop where
  aligned : ∀ b ∈ blocks, b.ptr.toNat % 8 = 0
  inside : ∀ b ∈ blocks, b.ptr.toNat + b.size.toNat ≤ s.pages * 65536
  apart : blocks.Pairwise fun b c =>
    b.ptr.toNat + b.size.toNat ≤ c.ptr.toNat ∨ c.ptr.toNat + c.size.toNat ≤ b.ptr.toNat
  lastPtr_le : s.dsmalloc.lastPtr.toNat ≤ s.dsmalloc.nextPage.toNat * 65536
  nextPage_eq : s.dsmalloc.nextPage.toNat = s.pages

/-- After every call that returns, everything is safe. -/
def AlwaysSafe : Bump → List Extent → List Request → Prop
  | _, _, [] => True
  | s, blocks, r :: rs => ∀ ret s', s.step r = some (ret, s') →
    s'.Safe (⟨ret, r.size⟩ :: blocks) ∧ AlwaysSafe s' (⟨ret, r.size⟩ :: blocks) rs

/-- A condition on the state before every call of a run. -/
def Along (P : Bump → Request → Prop) : Bump → List Request → Prop
  | _, [] => True
  | s, r :: rs => P s r ∧ ∀ ret s', s.step r = some (ret, s') → Along P s' rs

/-- The block and its padding reach the end of the address space, although the memory that the call
asks for does not. -/
def Overruns (s : Bump) (r : Request) : Prop :=
  2 ^ 32 ≤ s.dsmalloc.lastPtr.toNat + (r.size.toNat + 7) / 8 * 8 ∧
    s.dsmalloc.nextPage.toNat + r.size.toNat / 65536 < 65536 ∧ r.granted = true

end Bump

end UosioCdt.Malloc
