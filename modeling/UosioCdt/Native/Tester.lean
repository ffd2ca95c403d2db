import UosioCdt.Lib.Aborting
import UosioCdt.Native.Crt

/-!
# The native tester

The checks of `tester.hpp` over the streams of `crt.hpp`. A failed assertion is a `longjmp` to the
buffer that `___env_ptr` names at that time.
-/

namespace UosioCdt.Native

/-- The characters of a text. -/
def chars (s : String) : List UInt8 := s.toList.map fun c => UInt8.ofNat c.toNat

/-! ## The machine -/

/-- The two `jmp_buf`s, `env` and `test_env`. -/
inductive Env where
  | main
  | test
deriving DecidableEq, Repr

/-- The globals. -/
structure Machine where
  crt : Crt
  hasFailed : Bool
  env : Env

/-- What `_wrap_main` sets up. -/
def Machine.start : Machine := ⟨.start false, false, .main⟩

/-- How code ends that does not return: by a jump to a buffer, or by a push outside of the buffer of
a stream, behind which nothing is known. -/
inductive Exit where
  | jump (env : Env)
  | outside
deriving DecidableEq, Repr

/-- Code that returns or not. A jump leaves the globals as they are. -/
abbrev Run := EStateM Exit Machine

/-- `setjmp`, with the code that follows when it returns 0 and when a `longjmp` returns to it. -/
def setjmp {α : Type} (first again : Run α) : Run α := fun m =>
  match first m with
  | .ok a m' => .ok a m'
  | .error e m' => if e = .jump m.env then again m' else .error e m'

def setEnvTest : Run Unit := modify fun m => { m with env := .test }
def resetEnv : Run Unit := modify fun m => { m with env := .main }

def silenceOutput (t : Bool) : Run Unit :=
  modify fun m => { m with crt := { m.crt with disableOutput := t } }

def getDisableOutput : Run Bool := return (← get).crt.disableOutput

/-- A call that uses the streams. -/
def stream (call : StreamCall) : Run Unit := fun m =>
  match call.run m.crt with
  | some crt => .ok () { m with crt }
  | none => .error .outside m

/-- `uosio::print` of a string literal -/
def prints (cstr : List UInt8) : Run Unit := stream (.prints cstr .stdOut)

/-- `uosio::print` of a `std::string` -/
def printsL (text : List UInt8) : Run Unit := stream (.printsL text .stdOut)

/-- `longjmp(*___env_ptr, 1)` -/
def longjmp : Run Unit := do throw (.jump (← get).env)

/-- `uosio_assert` -/
def uosioAssert (test : Bool) (msg : List UInt8) : Run Unit :=
  if test then pure ()
  else do
    stream (.prints msg .stdErr)
    stream (.printsL (chars "\n") .none)
    longjmp

/-- `uosio_assert_message` -/
def uosioAssertMessage (test : Bool) (msg : List UInt8) : Run Unit :=
  if test then pure ()
  else do
    stream (.printsL msg .stdErr)
    stream (.printsL (chars "\n") .none)
    longjmp

/-- `uosio::check` -/
def check (pred : Bool) (msg : List UInt8) : Run Unit :=
  if pred then pure () else uosioAssert false msg

/-! ## Checks -/

/-- How the code under a check asserts. -/
inductive Failure where
  | assert (msg : List UInt8)
  | assertMessage (msg : List UInt8)
deriving DecidableEq, Repr

/-- The code under a check: what it prints, and the assertion with which it ends, if it does. -/
structure Func where
  text : List UInt8
  failure : Option Failure
deriving DecidableEq, Repr

def Func.call (func : Func) : Run Unit := do
  printsL func.text
  match func.failure with
  | none => pure ()
  | some (.assert msg) => uosioAssert false msg
  | some (.assertMessage msg) => uosioAssertMessage false msg

/-- What a check demands of a text: of the `index` of the stream and of the string. -/
abbrev Pred := ℕ → List UInt8 → Bool

/-- The predicate of a string literal. -/
def literal (expected : List UInt8) : Pred := fun index s =>
  index = expected.length && s.take expected.length == expected

/-- The end of a check: a `REQUIRE_…` asserts with `msg`, a `CHECK_…` prints `line`. -/
def report (check passed disableOut : Bool) (msg line : List UInt8) : Run Bool := do
  silenceOutput false
  if !check then Native.check passed msg
  if !passed then printsL line
  silenceOutput disableOut
  return passed

/-- A text with the place of a check. -/
def located (text li rest : List UInt8) : List UInt8 := text ++ chars " \x7b" ++ li ++ chars "\x7d" ++ rest

/-- `expect_assert` -/
def expectAssert (check : Bool) (li : List UInt8) (pred : Pred) (func : Func) : Run Bool := do
  stream (.clear .stdErr)
  setEnvTest
  setjmp
    (do
      let disableOut ← getDisableOutput
      func.call
      resetEnv
      -- the code has returned without asserting
      report check false disableOut (located (chars "error : expect_assert, no assert") li [])
        (located (chars "error : expect_assert, no assert") li (chars "\n")))
    (do
      let disableOut ← getDisableOutput
      resetEnv
      -- the code has asserted and jumped here
      let stdErr := (← get).crt.stdErr
      let passed := pred stdErr.index stdErr.get
      stream (.clear .stdErr)
      report check passed disableOut (located (chars "error : expect_assert, wrong assert") li [])
        (located (chars "error : expect_assert, wrong assert") li (chars "\n")))

/-- `expect_print` -/
def expectPrint (check : Bool) (li : List UInt8) (pred : Pred) (func : Func) : Run Bool := do
  stream (.clear .stdOut)
  func.call
  let stdOut := (← get).crt.stdOut
  let passed := pred stdOut.index stdOut.get
  stream (.clear .stdOut)
  let disableOut ← getDisableOutput
  report check passed disableOut (located (chars "error : wrong print message") li [])
    (located (chars "error : wrong print message9") li (chars "\n"))

/-- The checks, with what the preprocessor makes of their place and their operands. `equal` says
how the two operands compare. -/
inductive Step where
  | checkAssert (li : List UInt8) (pred : Pred) (func : Func)
  | requireAssert (li : List UInt8) (pred : Pred) (func : Func)
  | checkPrint (li : List UInt8) (pred : Pred) (func : Func)
  | requirePrint (li : List UInt8) (pred : Pred) (func : Func)
  | checkEqual (x y li : List UInt8) (equal : Bool)
  | requireEqual (x y li : List UInt8) (equal : Bool)

/-- The operands of a check that are not equal. -/
def unequal (macroName x y : List UInt8) : List UInt8 :=
  macroName ++ chars " failed (" ++ x ++ chars " != " ++ y ++ chars ")"

/-- The macros `CHECK_…` and `REQUIRE_…` -/
def Step.run : Step → Run Unit
  | checkAssert li pred func => do
    let passed ← expectAssert true li pred func
    -- `___has_failed &= passed`
    modify fun m => { m with hasFailed := m.hasFailed && passed }
  | requireAssert li pred func => discard (expectAssert false li pred func)
  | checkPrint li pred func => do
    let passed ← expectPrint true li pred func
    modify fun m => { m with hasFailed := m.hasFailed && passed }
  | requirePrint li pred func => discard (expectPrint false li pred func)
  | checkEqual x y li equal =>
    if equal then pure ()
    else do
      modify fun m => { m with hasFailed := true }
      printsL (located (unequal (chars "CHECK_EQUAL") x y) li (chars "\n"))
  | requireEqual x y li equal =>
    check equal (located (unequal (chars "REQUIRE_EQUAL") x y) li [])

/-! ## Tests -/

/-- A test between `UOSIO_TEST_BEGIN` and `UOSIO_TEST_END`. -/
structure Test where
  name : List UInt8
  steps : List Step

/-- The line that a test ends with. -/
def printVerdict (name verdict : List UInt8) : Run Unit := do
  prints (chars "\x1b[1;37m")
  prints name
  prints verdict

def Test.run (t : Test) : Run Unit := do
  forM t.steps Step.run
  silenceOutput false
  printVerdict t.name (chars " \x1b[0;37munit test \x1b[1;32mpassed\x1b[0m\n")
  silenceOutput (← getDisableOutput)

/-- `UOSIO_TEST` -/
def uosioTest (t : Test) : Run Unit :=
  setjmp t.run
    (do
      silenceOutput false
      -- a check has left the test
      printVerdict t.name (chars " \x1b[0;37munit test \x1b[1;31mfailed\x1b[0m\n")
      modify fun m => { m with hasFailed := true }
      silenceOutput (← getDisableOutput))

/-- The `main` of a test program; it returns `has_failed()`. -/
def main (silence : Bool) (tests : List Test) : Run Bool := do
  silenceOutput silence
  forM tests uosioTest
  return (← get).hasFailed

end UosioCdt.Native
