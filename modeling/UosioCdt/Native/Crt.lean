import UosioCdt.Lib.FixedBuffer
import UosioCdt.Lib.LittleEndian

/-!
# The native runtime

The output streams of `crt.hpp` and the memory of `crt.cpp`. The buffer of a stream has a fixed size
that `push` does not check: the model has no state behind a push that would write outside of it.
-/

namespace UosioCdt.Native

/-! ## Output streams -/

inductive OutputStreamKind where
  | stdOut
  | stdErr
  | none
deriving DecidableEq, Repr

/-- `sizeof(output)` -/
def outputSize : ℕ := 1024 * 2

/-- `output_stream`: the characters of `output`, and `index`. -/
abbrev OutputStream := FixedBuffer UInt8 outputSize

/-- The globals as they are before `main`. -/
def OutputStream.zero : OutputStream := ⟨Vector.replicate outputSize 0, 0, Nat.zero_le _⟩

/-- `get`, as a string: it ends at the first zero of `output`, or of `index` behind it. -/
def OutputStream.get (s : OutputStream) : List UInt8 :=
  (s.cells.toList ++ LittleEndian.toBytes 8 s.index).takeWhile (· ≠ 0)

/-- The globals that the print functions use, and what `___putc` has put out. -/
structure Crt where
  stdOut : OutputStream
  stdErr : OutputStream
  disableOutput : Bool
  console : List UInt8

def Crt.start (disableOutput : Bool) : Crt := ⟨.zero, .zero, disableOutput, []⟩

namespace Crt

/-- The `push` of the stream that `which` names. -/
def pushTo (m : Crt) (which : OutputStreamKind) (c : UInt8) : Option Crt :=
  match which with
  | .stdOut => (m.stdOut.push c).map fun s => { m with stdOut := s }
  | .stdErr => (m.stdErr.push c).map fun s => { m with stdErr := s }
  | .none => some m

/-- `clear` -/
def clear (m : Crt) (which : OutputStreamKind) : Crt :=
  match which with
  | .stdOut => { m with stdOut := m.stdOut.clear }
  | .stdErr => { m with stdErr := m.stdErr.clear }
  | .none => m

/-- `if (!___disable_output) ___putc(c)` -/
def putc (m : Crt) (c : UInt8) : Crt :=
  if m.disableOutput then m else { m with console := m.console ++ [c] }

/-- `_prints_l` of the characters at `cstr` -/
def printsL (m : Crt) (cstr : List UInt8) (which : OutputStreamKind) : Option Crt :=
  match cstr with
  | [] => some m
  | c :: cstr => do
    let m ← m.pushTo which c
    (m.putc c).printsL cstr which

/-- `_prints` ends at the first zero. -/
def prints (m : Crt) (cstr : List UInt8) (which : OutputStreamKind) : Option Crt :=
  match cstr with
  | [] => some m
  | c :: cstr =>
    if c = 0 then some m
    else do
      let m ← m.pushTo which c
      (m.putc c).prints cstr which

/-- `to_string` -/
def captured (m : Crt) : OutputStreamKind → List UInt8
  | .stdOut => m.stdOut.contents
  | .stdErr => m.stdErr.contents
  | .none => []

end Crt

/-- What the program does with the streams. -/
inductive StreamCall where
  | push (which : OutputStreamKind) (c : UInt8)
  | printsL (cstr : List UInt8) (which : OutputStreamKind)
  | prints (cstr : List UInt8) (which : OutputStreamKind)
  | clear (which : OutputStreamKind)

/-- One call; `none` when a push writes outside of its buffer. -/
def StreamCall.run (m : Crt) : StreamCall → Option Crt
  | .push which c => m.pushTo which c
  | .printsL cstr which => m.printsL cstr which
  | .prints cstr which => m.prints cstr which
  | .clear which => some (m.clear which)

/-! ## Memory -/

/-- What `_mmap` reserves. -/
def regionSize : UInt64 := 0x6400000

/-- `___heap_ptr` and `___pages` -/
structure NativeMemory where
  heapPtr : UInt64
  pages : UInt64
deriving DecidableEq, Repr

namespace NativeMemory

/-- What `_wrap_main` sets up, with the region at `heap`. -/
def start (heap : UInt64) : NativeMemory := ⟨heap, 1⟩

/-- `_current_memory` -/
def currentMemory (m : NativeMemory) : UInt64 := m.pages

/-- The condition under which `_grow_memory` asserts. -/
def refuses (m : NativeMemory) (size : UInt64) : Bool :=
  m.heapPtr + size * 64 * 1024 > m.heapPtr + 100 * 1024 * 1024

/-- `_grow_memory`; `none` when it asserts. -/
def growMemory (m : NativeMemory) (size : UInt64) : Option (UInt64 × NativeMemory) :=
  if m.refuses size then none
  else
    let m := { m with heapPtr := m.heapPtr + size * 64 * 1024 }
    let m := { m with pages := m.pages + 1 }
    some (m.pages, m)

end NativeMemory

end UosioCdt.Native
