import UosioCdt.Native.CrtTheorems
import UosioCdt.Native.Tester
import Mathlib.Data.List.Induction

/-!
# Theorems: the verdict of a native test run

A check either keeps the flag, writes it, or leaves the test, which sets it. The last check that
does not keep the flag decides. The predicate of a check gets the buffer of the stream, in which
earlier texts may stand behind the one that is meant.
-/

namespace UosioCdt.Native

open Aborting

/-! ## One check -/

/-- What the assertion writes to `std_err`. -/
def Failure.text : Failure → List UInt8
  | assert msg => msg.takeWhile (· ≠ 0)
  | assertMessage msg => msg

/-- The predicate accepts a text that stands alone in the stream. -/
def Pred.accepts (pred : Pred) (text : List UInt8) : Bool := pred text.length text

/-- The code asserts with a message that the predicate accepts. -/
def Func.AssertsWith (func : Func) (pred : Pred) : Bool :=
  match func.failure with
  | none => false
  | some failure => pred.accepts failure.text

/-- The code returns, and the predicate accepts what it prints. -/
def Func.PrintsWith (func : Func) (pred : Pred) : Bool := func.failure.isNone && pred.accepts func.text

namespace Step

/-- What the check is about is the case. -/
def holds : Step → Bool
  | checkAssert _ pred func => func.AssertsWith pred
  | requireAssert _ pred func => func.AssertsWith pred
  | checkPrint _ pred func => func.PrintsWith pred
  | requirePrint _ pred func => func.PrintsWith pred
  | checkEqual _ _ _ equal => equal
  | requireEqual _ _ _ equal => equal

/-- The test ends here: a `REQUIRE_…` does not hold, or the code under a check of its output
asserts. -/
def leaves : Step → Bool
  | checkAssert _ _ _ => false
  | requireAssert _ pred func => !func.AssertsWith pred
  | checkPrint _ _ func => func.failure.isSome
  | requirePrint _ pred func => !func.PrintsWith pred
  | checkEqual _ _ _ _ => false
  | requireEqual _ _ _ equal => !equal

/-- A failed `CHECK_ASSERT` or `CHECK_PRINT` that goes on with the test. -/
def clears : Step → Bool
  | checkAssert _ pred func => !func.AssertsWith pred
  | checkPrint _ pred func => func.failure.isNone && !pred.accepts func.text
  | _ => false

end Step

/-- The predicate says of the buffer of `std_err`, when the code has asserted, what it says of the
message. -/
def DecidesAssert (m : Machine) (pred : Pred) (func : Func) : Prop :=
  ∀ failure, func.failure = some failure → ∀ e m',
    (do stream (.clear .stdErr); setEnvTest; func.call : Run Unit) m = .error (.jump e) m' →
      pred m'.crt.stdErr.index m'.crt.stdErr.get = pred.accepts failure.text

/-- The predicate says of the buffer of `std_out`, when the code has returned, what it says of what
was printed. -/
def DecidesPrint (m : Machine) (pred : Pred) (func : Func) : Prop :=
  ∀ m', (do stream (.clear .stdOut); func.call : Run Unit) m = .ok () m' →
    pred m'.crt.stdOut.index m'.crt.stdOut.get = pred.accepts func.text

/-- The predicate of a check decides on the buffer as on the text. -/
def Decides (m : Machine) : Step → Prop
  | .checkAssert _ pred func => DecidesAssert m pred func
  | .requireAssert _ pred func => DecidesAssert m pred func
  | .checkPrint _ pred func => DecidesPrint m pred func
  | .requirePrint _ pred func => DecidesPrint m pred func
  | .checkEqual _ _ _ _ => True
  | .requireEqual _ _ _ _ => True

/-- The flag, and the buffer to which an assertion jumps. -/
def Between (failed : Bool) (env : Env) (m : Machine) : Prop := m.hasFailed = failed ∧ m.env = env

variable {m : Machine} {failed check : Bool} {li : List UInt8} {pred : Pred} {func : Func}
  {env : Env}

/-- The code after a jump to the buffer runs in the state of the jump. -/
lemma meets_setjmp {α : Type} {first again : Run α} {Q : α → Machine → Prop}
    {E : Exit → Machine → Prop}
    (h : Meets first m Q fun e m' => (e = .jump m.env → Meets again m' Q E) ∧ (e ≠ .jump m.env → E e m')) :
    Meets (setjmp first again) m Q E := by
  unfold Meets setjmp at *
  cases hf : first m with
  | ok a m' =>
    rw [hf] at h
    exact h
  | error e m' =>
    rw [hf] at h
    by_cases he : e = .jump m.env
    · simp only [if_pos he]
      exact h.1 he
    · simp only [if_neg he]
      exact h.2 he

/-- The end of code that does not return: a jump with `P`, or a push outside. -/
def Jumps (env : Env) (P : Machine → Prop) (e : Exit) (m : Machine) : Prop :=
  e = .outside ∨ e = .jump env ∧ P m

lemma Jumps.mono {P Q : Machine → Prop} {e : Exit} (h : Jumps env P e m) (hpq : P m → Q m) :
    Jumps env Q e m := h.imp_right fun h => ⟨h.1, hpq h.2⟩

lemma stream_meets (call : StreamCall) (hm : Between failed env m) {P : Machine → Prop} :
    Meets (stream call) m (fun _ m' => Between failed env m') (Jumps env P) := by
  unfold Meets stream
  cases call.run m.crt with
  | some crt => exact hm
  | none => exact .inl rfl

lemma longjmp_meets (hm : Between failed env m) {Q : Unit → Machine → Prop} :
    Meets longjmp m Q (Jumps env fun m' => Between failed env m') := .inr ⟨congrArg _ hm.2, hm⟩

lemma uosioAssert_meets (msg : List UInt8) (hm : Between failed env m) {Q : Unit → Machine → Prop} :
    Meets (uosioAssert false msg) m Q (Jumps env fun m' => Between failed env m') := by
  apply (stream_meets _ hm).bind
  intro _ m' hm'
  apply (stream_meets _ hm').bind
  intro _ m'' hm''
  exact longjmp_meets hm''

lemma uosioAssertMessage_meets (msg : List UInt8) (hm : Between failed env m)
    {Q : Unit → Machine → Prop} :
    Meets (uosioAssertMessage false msg) m Q (Jumps env fun m' => Between failed env m') := by
  apply (stream_meets _ hm).bind
  intro _ m' hm'
  apply (stream_meets _ hm').bind
  intro _ m'' hm''
  exact longjmp_meets hm''

lemma call_meets (func : Func) (hm : Between failed env m) :
    Meets func.call m (fun _ m' => func.failure = none ∧ Between failed env m')
      (Jumps env fun m' => func.failure.isSome = true ∧ Between failed env m') := by
  apply (stream_meets _ hm).bind
  intro _ m' hm'
  cases hfailure : func.failure with
  | none => exact ⟨rfl, hm'⟩
  | some failure =>
    cases failure with
    | assert msg =>
      apply (uosioAssert_meets msg hm').mono fun _ _ h => h
      exact fun e m'' h => h.mono fun hbetween => ⟨rfl, hbetween⟩
    | assertMessage msg =>
      apply (uosioAssertMessage_meets msg hm').mono fun _ _ h => h
      exact fun e m'' h => h.mono fun hbetween => ⟨rfl, hbetween⟩

/-- A `REQUIRE_…` that does not hold jumps; every other check returns whether it holds. -/
lemma report_meets {passed disableOut : Bool} {msg line : List UInt8} (hm : Between failed env m) :
    Meets (report check passed disableOut msg line) m
      (fun b m' => (b = passed ∧ (check = false → passed = true)) ∧ Between failed env m')
      (Jumps env fun m' => (check = false ∧ passed = false) ∧ Between failed env m') := by
  have hsilent : Between failed env { m with crt := { m.crt with disableOutput := false } } := hm
  cases check with
  | false =>
    cases passed with
    | false =>
      show Meets (uosioAssert false msg >>= fun _ => _) _ _ _
      rw [meets_bind]
      apply (uosioAssert_meets msg hsilent (Q := fun _ _ => False)).mono
      · exact fun _ _ h => h.elim
      · exact fun e m' h => h.mono fun hbetween => ⟨⟨rfl, rfl⟩, hbetween⟩
    | true => exact ⟨⟨rfl, fun _ => rfl⟩, hm⟩
  | true =>
    cases passed with
    | false =>
      apply (stream_meets _ hsilent).bind
      intro _ m' hm'
      exact ⟨⟨rfl, nofun⟩, hm'⟩
    | true => exact ⟨⟨rfl, fun _ => rfl⟩, hm⟩

/-- `expect_assert` returns whether the code asserts as expected; a `REQUIRE_ASSERT` jumps out of
the test instead of returning `false`. -/
lemma expectAssert_meets (hm : Between failed .main m) (hdecides : DecidesAssert m pred func) :
    Meets (expectAssert check li pred func) m
      (fun b m' => (b = func.AssertsWith pred ∧ (check = false → func.AssertsWith pred = true)) ∧
        Between failed .main m')
      (Jumps .main fun m' => (check = false ∧ func.AssertsWith pred = false) ∧
        Between failed .main m') := by
  obtain ⟨hfailed, -⟩ := hm
  unfold expectAssert
  rw [meets_bind]
  show Meets (setEnvTest >>= fun _ => setjmp _ _) { m with crt := m.crt.clear .stdErr } _ _
  rw [meets_bind]
  have hstart : Between failed .test { m with crt := m.crt.clear .stdErr, env := .test } :=
    ⟨hfailed, rfl⟩
  apply meets_setjmp
  show Meets (func.call >>= fun _ => _) { m with crt := m.crt.clear .stdErr, env := .test } _ _
  rw [meets_bind]
  apply (call_meets func hstart).self.mono
  · rintro _ m' ⟨⟨hfailure, hm'⟩, -⟩
    have hasserts : func.AssertsWith pred = false := by
      unfold Func.AssertsWith
      rw [hfailure]
    have hreset : Between failed .main { m' with env := .main } := ⟨hm'.1, rfl⟩
    rw [hasserts]
    -- the buffer of the test is set again before the check reports
    apply (report_meets hreset).mono
    · exact fun b m'' h => ⟨⟨h.1.1, h.1.2⟩, h.2⟩
    · rintro e m'' (rfl | ⟨rfl, hjump, hbetween⟩)
      · exact ⟨nofun, fun _ => .inl rfl⟩
      · exact ⟨nofun, fun _ => .inr ⟨rfl, ⟨hjump.1, rfl⟩, hbetween⟩⟩
  · rintro e m' ⟨rfl | ⟨rfl, hfailure, hm'⟩, hcall⟩
    · exact ⟨nofun, fun _ => .inl rfl⟩
    · refine ⟨fun _ => ?_, fun hne => absurd rfl hne⟩
      obtain ⟨failure, hsome⟩ := Option.isSome_iff_exists.mp hfailure
      have hasserts : func.AssertsWith pred = pred.accepts failure.text := by
        unfold Func.AssertsWith
        rw [hsome]
      have hpred := hdecides failure hsome .test m' hcall
      have hreset : Between failed .main { m' with crt := m'.crt.clear .stdErr, env := .main } :=
        ⟨hm'.1, rfl⟩
      rw [hasserts, ← hpred]
      exact report_meets hreset

/-- `expect_print` returns whether the code prints as expected. The test is left when the code
asserts, and when a `REQUIRE_PRINT` does not hold. -/
lemma expectPrint_meets (hm : Between failed .main m) (hdecides : DecidesPrint m pred func) :
    Meets (expectPrint check li pred func) m
      (fun b m' => (b = func.PrintsWith pred ∧ func.failure = none ∧
        (check = false → func.PrintsWith pred = true)) ∧ Between failed .main m')
      (Jumps .main fun m' => (func.PrintsWith pred = false ∧
        (check = true → func.failure.isSome = true)) ∧ Between failed .main m') := by
  unfold expectPrint
  rw [meets_bind]
  have hstart : Between failed .main { m with crt := m.crt.clear .stdOut } := hm
  show Meets (func.call >>= fun _ => _) { m with crt := m.crt.clear .stdOut } _ _
  rw [meets_bind]
  apply (call_meets func hstart).self.mono
  · rintro _ m' ⟨⟨hfailure, hm'⟩, hcall⟩
    have hprints : func.PrintsWith pred = pred.accepts func.text := by
      unfold Func.PrintsWith
      rw [hfailure]
      rfl
    have hpred := hdecides m' hcall
    rw [hprints, ← hpred]
    show Meets (report check (pred m'.crt.stdOut.index m'.crt.stdOut.get) _ _ _)
      { m' with crt := m'.crt.clear .stdOut } _ _
    have hcleared : Between failed .main { m' with crt := m'.crt.clear .stdOut } := hm'
    apply (report_meets hcleared).mono
    · exact fun b m'' h => ⟨⟨h.1.1, hfailure, h.1.2⟩, h.2⟩
    · intro e m'' h
      apply h.mono
      rintro ⟨⟨hcheck, hfalse⟩, hbetween⟩
      refine ⟨⟨hfalse, fun htrue => ?_⟩, hbetween⟩
      rw [hcheck] at htrue
      cases htrue
  · rintro e m' ⟨h, -⟩
    apply h.mono
    rintro ⟨hfailure, hbetween⟩
    refine ⟨⟨?_, fun _ => hfailure⟩, hbetween⟩
    obtain ⟨failure, hsome⟩ := Option.isSome_iff_exists.mp hfailure
    unfold Func.PrintsWith
    rw [hsome]
    rfl

/-! ## The flag -/

namespace Step

/-- What a check does to the flag, when leaving the test counts. -/
def flag (failed : Bool) (c : Step) : Bool := if c.holds then failed else !c.clears

/-- A check that is completed leaves the flag it stands for, and one that is not leaves the flag. -/
def Completes (failed : Bool) (m : Machine) (c : Step) : Prop :=
  Meets c.run m (fun _ m' => c.leaves = false ∧ Between (flag failed c) .main m')
    (Jumps .main fun m' => c.leaves = true ∧ Between failed .main m')

lemma checkAssert_completes (hm : Between failed .main m) (hdecides : DecidesAssert m pred func) :
    Completes failed m (checkAssert li pred func) := by
  apply meets_bind.2
  apply (expectAssert_meets hm hdecides).mono
  · intro passed m' h
    refine ⟨rfl, ?_, h.2.2⟩
    -- `&=` keeps the flag or clears it
    show (m'.hasFailed && passed) = flag failed (checkAssert li pred func)
    rw [h.1.1, h.2.1]
    cases hholds : func.AssertsWith pred <;> simp [flag, holds, clears, hholds]
  · intro e m' h
    apply h.mono
    rintro ⟨⟨hcheck, -⟩, -⟩
    cases hcheck

lemma requireAssert_completes (hm : Between failed .main m) (hdecides : DecidesAssert m pred func) :
    Completes failed m (requireAssert li pred func) := by
  apply meets_bind.2
  apply (expectAssert_meets hm hdecides).mono
  · intro passed m' h
    have hholds := h.1.2 rfl
    refine ⟨?_, ?_, h.2.2⟩
    · show (!func.AssertsWith pred) = false
      simp [hholds]
    · show m'.hasFailed = if func.AssertsWith pred then failed else !false
      simp [hholds, h.2.1]
  · intro e m' h
    apply h.mono
    rintro ⟨⟨-, hholds⟩, hbetween⟩
    refine ⟨?_, hbetween⟩
    show (!func.AssertsWith pred) = true
    simp [hholds]

lemma checkPrint_completes (hm : Between failed .main m) (hdecides : DecidesPrint m pred func) :
    Completes failed m (checkPrint li pred func) := by
  apply meets_bind.2
  apply (expectPrint_meets hm hdecides).mono
  · intro passed m' h
    have hreturns := h.1.2.1
    refine ⟨?_, ?_, h.2.2⟩
    · show func.failure.isSome = false
      simp [hreturns]
    · show (m'.hasFailed && passed) = flag failed (checkPrint li pred func)
      rw [h.1.1, h.2.1]
      cases hpred : pred.accepts func.text <;>
        simp [flag, holds, clears, Func.PrintsWith, hreturns, hpred]
  · intro e m' h
    apply h.mono
    rintro ⟨⟨-, hfailure⟩, hbetween⟩
    exact ⟨hfailure rfl, hbetween⟩

lemma requirePrint_completes (hm : Between failed .main m) (hdecides : DecidesPrint m pred func) :
    Completes failed m (requirePrint li pred func) := by
  apply meets_bind.2
  apply (expectPrint_meets hm hdecides).mono
  · intro passed m' h
    have hholds := h.1.2.2 rfl
    refine ⟨?_, ?_, h.2.2⟩
    · show (!func.PrintsWith pred) = false
      simp [hholds]
    · show m'.hasFailed = if func.PrintsWith pred then failed else !false
      simp [hholds, h.2.1]
  · intro e m' h
    apply h.mono
    rintro ⟨⟨hholds, -⟩, hbetween⟩
    refine ⟨?_, hbetween⟩
    show (!func.PrintsWith pred) = true
    simp [hholds]

lemma run_meets (c : Step) (hm : Between failed .main m) (hdecides : Decides m c) :
    Completes failed m c := by
  cases c with
  | checkAssert li pred func => exact checkAssert_completes hm hdecides
  | requireAssert li pred func => exact requireAssert_completes hm hdecides
  | checkPrint li pred func => exact checkPrint_completes hm hdecides
  | requirePrint li pred func => exact requirePrint_completes hm hdecides
  | checkEqual x y li equal =>
    cases equal with
    | false =>
      have hset : Between true .main { m with hasFailed := true } := ⟨rfl, hm.2⟩
      apply (stream_meets _ hset).mono
      · exact fun _ m' hm' => ⟨rfl, hm'⟩
      · exact fun _ _ h => h
    | true => exact ⟨rfl, hm⟩
  | requireEqual x y li equal =>
    cases equal with
    | false =>
      apply (uosioAssert_meets _ hm (Q := fun _ _ => False)).mono
      · exact fun _ _ h => h.elim
      · exact fun e m' h => h.mono fun hbetween => ⟨rfl, hbetween⟩
    | true => exact ⟨rfl, hm⟩

lemma flag_of_leaves {c : Step} (h : c.leaves = true) : flag failed c = true := by
  cases c with
  | checkAssert li pred func => cases h
  | requireAssert li pred func =>
    have hholds : func.AssertsWith pred = false := by simpa [leaves] using h
    show (if func.AssertsWith pred then failed else !false) = true
    rw [hholds]
    rfl
  | checkPrint li pred func =>
    obtain ⟨text, failure⟩ := func
    cases failure with
    | none => cases h
    | some msg => rfl
  | requirePrint li pred func =>
    have hholds : func.PrintsWith pred = false := by simpa [leaves] using h
    show (if func.PrintsWith pred then failed else !false) = true
    rw [hholds]
    rfl
  | checkEqual x y li equal => cases h
  | requireEqual x y li equal =>
    cases equal with
    | false => rfl
    | true => cases h

end Step

/-! ## Literals -/

/-- The beginning of a string whose end is marked, compared with a text that has no such mark. -/
lemma take_takeWhile_iff {α : Type} {p : α → Bool} {text expected : List α} (rest : List α)
    (hlength : text.length = expected.length) (hexpected : ∀ x ∈ expected, p x = true) :
    ((text ++ rest).takeWhile p).take expected.length = expected ↔ text = expected := by
  constructor
  · intro heq
    have hbegin : expected <+: text ++ rest := by
      rw [← heq]
      exact List.IsPrefix.trans ( List.take_prefix _ _) ( List.takeWhile_prefix p)
    have hle := List.prefix_of_prefix_length_le (List.prefix_append text rest) hbegin
      (Nat.le_of_eq hlength)
    exact hle.eq_of_length hlength
  · rintro rfl
    rw [List.takeWhile_append_of_pos hexpected, List.take_left]

/-- A literal without a zero is found in the buffer exactly when it is what has been captured. -/
lemma literal_get {expected : List UInt8} (hexpected : ∀ c ∈ expected, c ≠ 0) (s : OutputStream) :
    literal expected s.index s.get = (literal expected).accepts s.contents := by
  have hlength := FixedBuffer.length_contents s
  unfold literal Pred.accepts
  rw [hlength]
  by_cases hindex : s.index = expected.length
  · have hcells : s.cells.toList ++ LittleEndian.toBytes 8 s.index =
        s.contents ++ (s.cells.toList.drop s.index ++ LittleEndian.toBytes 8 s.index) := by
      rw [← List.append_assoc]
      exact congrArg (· ++ _) (List.take_append_drop _ _).symm
    have htext : s.contents.take expected.length = s.contents :=
      List.take_of_length_le (Nat.le_of_eq (hlength.trans hindex))
    have hstring : s.get.take expected.length = expected ↔ s.contents = expected := by
      unfold OutputStream.get
      rw [hcells]
      apply take_takeWhile_iff _ (hlength.trans hindex)
      exact fun c hc => decide_eq_true (hexpected c hc)
    beta_reduce
    rw [htext, Bool.eq_iff_iff]
    simp [hindex, hstring]
  · simp [hindex]

/-- What the streams have captured behind a call. -/
lemma stream_captured (call : StreamCall) (m : Machine) :
    Meets (stream call) m (fun _ m' => m'.crt.captured = call.pushed m.crt.captured)
      (fun e _ => e = .outside) := by
  have hend := call.run_endsWith m.crt
  unfold Meets stream
  cases hrun : call.run m.crt with
  | some crt =>
    -- a push without room has no result
    by_cases hfits : (call.pushed m.crt.captured).Fits
    · obtain ⟨crt', hsome, hcaptured⟩ := hend.1 hfits
      rw [hrun] at hsome
      cases hsome
      exact hcaptured
    · rw [hend.2 hfits] at hrun
      cases hrun
  | none => rfl

/-- An assertion puts its message into `std_err` and jumps. -/
lemma assert_captured (call : StreamCall) {m : Machine} {text : List UInt8}
    (hcall : call.pushed m.crt.captured = Pushed.add m.crt.captured .stdErr text)
    {Q : Unit → Machine → Prop} :
    Meets (do stream call; stream (.printsL (chars "\n") .none); longjmp : Run Unit) m Q
      (fun e m' => e = .outside ∨ m'.crt.captured .stdErr = m.crt.captured .stdErr ++ text) := by
  rw [meets_bind]
  apply (stream_captured call m).mono _ fun _ _ h => .inl h
  intro _ m' hmessage
  rw [meets_bind]
  apply (stream_captured _ m').mono _ fun _ _ h => .inl h
  intro _ m'' hnewline
  -- the end of the line goes to no stream
  refine .inr ?_
  rw [hnewline, hmessage, hcall]
  rfl

/-- Behind an assertion the message stands in `std_err`, and behind code that returns what it prints
in `std_out`. -/
lemma call_captured (func : Func) (m : Machine) :
    Meets func.call m
      (fun _ m' => m'.crt.captured .stdOut = m.crt.captured .stdOut ++ func.text)
      (fun e m' => e = .outside ∨ ∀ failure, func.failure = some failure →
        m'.crt.captured .stdErr = m.crt.captured .stdErr ++ failure.text) := by
  unfold Func.call
  rw [meets_bind]
  apply (stream_captured _ m).mono _ fun _ _ h => .inl h
  intro _ m' htext
  have hstdErr : m'.crt.captured .stdErr = m.crt.captured .stdErr := by
    rw [htext]
    rfl
  cases func.failure with
  | none =>
    show m'.crt.captured .stdOut = _
    rw [htext]
    rfl
  | some failure =>
    cases failure with
    | assert msg =>
      apply (assert_captured (.prints msg .stdErr) rfl).mono fun _ _ h => h
      intro e m'' h
      refine h.imp_right fun hmessage failure hfailure => ?_
      cases hfailure
      rwa [hstdErr] at hmessage
    | assertMessage msg =>
      apply (assert_captured (.printsL msg .stdErr) rfl).mono fun _ _ h => h
      intro e m'' h
      refine h.imp_right fun hmessage failure hfailure => ?_
      cases hfailure
      rwa [hstdErr] at hmessage

/-- The predicate of a literal without a zero decides on the buffer as on the text. -/
lemma decidesAssert_literal {expected : List UInt8} (hexpected : ∀ c ∈ expected, c ≠ 0) :
    DecidesAssert m (literal expected) func := by
  intro failure hfailure e m' hrun
  have hcall := call_captured func { m with crt := m.crt.clear .stdErr, env := .test }
  have herror : func.call { m with crt := m.crt.clear .stdErr, env := .test } = .error (.jump e) m' :=
    hrun
  unfold Meets at hcall
  rw [herror] at hcall
  have hmessage := hcall.resolve_left nofun failure hfailure
  rw [literal_get hexpected]
  exact congrArg (literal expected).accepts hmessage

lemma decidesPrint_literal {expected : List UInt8} (hexpected : ∀ c ∈ expected, c ≠ 0) :
    DecidesPrint m (literal expected) func := by
  intro m' hrun
  have hcall := call_captured func { m with crt := m.crt.clear .stdOut }
  have hok : func.call { m with crt := m.crt.clear .stdOut } = .ok () m' := hrun
  unfold Meets at hcall
  rw [hok] at hcall
  rw [literal_get hexpected]
  exact congrArg (literal expected).accepts hcall

/-- The check has a literal without a zero, or no predicate. -/
def Step.Literal : Step → Prop
  | checkAssert _ pred _ => ∃ expected, (∀ c ∈ expected, c ≠ 0) ∧ pred = literal expected
  | requireAssert _ pred _ => ∃ expected, (∀ c ∈ expected, c ≠ 0) ∧ pred = literal expected
  | checkPrint _ pred _ => ∃ expected, (∀ c ∈ expected, c ≠ 0) ∧ pred = literal expected
  | requirePrint _ pred _ => ∃ expected, (∀ c ∈ expected, c ≠ 0) ∧ pred = literal expected
  | checkEqual _ _ _ _ => True
  | requireEqual _ _ _ _ => True

lemma Step.Literal.decides {c : Step} (h : c.Literal) : Decides m c := by
  cases c with
  | checkAssert li pred func =>
    obtain ⟨expected, hexpected, rfl⟩ := h
    exact decidesAssert_literal hexpected
  | requireAssert li pred func =>
    obtain ⟨expected, hexpected, rfl⟩ := h
    exact decidesAssert_literal hexpected
  | checkPrint li pred func =>
    obtain ⟨expected, hexpected, rfl⟩ := h
    exact decidesPrint_literal hexpected
  | requirePrint li pred func =>
    obtain ⟨expected, hexpected, rfl⟩ := h
    exact decidesPrint_literal hexpected
  | checkEqual x y li equal => trivial
  | requireEqual x y li equal => trivial

/-! ## Runs -/

/-- The checks of a test that are executed, each with the machine in front of it. -/
def executedOf (m : Machine) : List Step → List (Machine × Step)
  | [] => []
  | c :: cs => (m, c) :: match c.run m with
    | .ok _ m' => executedOf m' cs
    | .error _ _ => []

/-- The checks that are executed, in this order. -/
def executed (m : Machine) : List Test → List (Machine × Step)
  | [] => []
  | t :: ts => executedOf m t.steps ++ match uosioTest t m with
    | .ok _ m' => executed m' ts
    | .error _ _ => []

/-- The checks that a run executes. -/
def executedChecks (silence : Bool) (tests : List Test) : List (Machine × Step) :=
  executed { Machine.start with crt := .start silence } tests

lemma mem_executedOf {cs : List Step} {c : Machine × Step} (h : c ∈ executedOf m cs) : c.2 ∈ cs := by
  induction cs generalizing m with
  | nil => cases h
  | cons c' cs ih =>
    unfold executedOf at h
    rcases List.mem_cons.mp h with rfl | h
    · exact List.mem_cons_self
    · cases hrun : c'.run m with
      | ok a m' =>
        rw [hrun] at h
        exact List.mem_cons_of_mem _ (ih h)
      | error e m' =>
        rw [hrun] at h
        cases h

lemma mem_executed {tests : List Test} {c : Machine × Step} (h : c ∈ executed m tests) :
    ∃ t ∈ tests, c.2 ∈ t.steps := by
  induction tests generalizing m with
  | nil => cases h
  | cons t ts ih =>
    unfold executed at h
    rcases List.mem_append.mp h with h | h
    · exact ⟨t, List.mem_cons_self, mem_executedOf h⟩
    · cases hrun : uosioTest t m with
      | ok a m' =>
        rw [hrun] at h
        obtain ⟨t', ht', hc⟩ := ih h
        exact ⟨t', List.mem_cons_of_mem _ ht', hc⟩
      | error e m' =>
        rw [hrun] at h
        cases h

/-- A program whose checks have literals has no predicate that the buffer misleads. -/
lemma decides_of_literals {silence : Bool} {tests : List Test}
    (h : ∀ t ∈ tests, ∀ c ∈ t.steps, c.Literal) :
    ∀ c ∈ executedChecks silence tests, Decides c.1 c.2 := by
  intro c hc
  obtain ⟨t, ht, hmem⟩ := mem_executed hc
  exact (h t ht c.2 hmem).decides

/-- The last check that does not hold. -/
def lastFailure (cs : List (Machine × Step)) : Option (Machine × Step) :=
  (cs.filter fun c => !c.2.holds).getLast?

/-- The flag behind some checks. -/
def flagAfter (failed : Bool) (cs : List (Machine × Step)) : Bool :=
  cs.foldl (fun failed c => c.2.flag failed) failed

/-- A test is left at the first check that leaves it. -/
lemma steps_meets (cs : List Step) (hm : Between failed .main m)
    (hdecides : ∀ c ∈ executedOf m cs, Decides c.1 c.2) :
    Meets (forM cs Step.run) m
      (fun _ m' => Between (flagAfter failed (executedOf m cs)) .main m')
      (Jumps .main fun m' => flagAfter failed (executedOf m cs) = true ∧ m'.env = .main) := by
  induction cs generalizing m failed with
  | nil => exact hm
  | cons c cs ih =>
    rw [List.forM_cons]
    apply meets_bind.2
    apply (c.run_meets hm (hdecides (m, c) List.mem_cons_self)).self.mono
    · -- the check is completed, and the others follow
      rintro _ m' ⟨⟨-, hm'⟩, hrun⟩
      unfold executedOf at hdecides ⊢
      rw [hrun] at hdecides ⊢
      exact ih hm' fun c' hc' => hdecides c' (List.mem_cons_of_mem _ hc')
    · rintro e m' ⟨h, hrun⟩
      -- the check leaves the test, so no other is executed
      apply h.mono
      rintro ⟨hleaves, hm'⟩
      unfold executedOf
      rw [hrun]
      exact ⟨Step.flag_of_leaves hleaves, hm'.2⟩

/-- The line of a test is printed, or a push goes outside. -/
lemma printVerdict_meets (name verdict : List UInt8) (hm : Between failed env m) :
    Meets (printVerdict name verdict) m (fun _ m' => Between failed env m')
      (fun e _ => e = .outside) := by
  have hstream (call : StreamCall) {m' : Machine} (hm' : Between failed env m') :
      Meets (stream call) m' (fun _ m'' => Between failed env m'') (fun e _ => e = .outside) :=
    (stream_meets call hm' (P := fun _ => False)).mono (fun _ _ h => h)
      fun _ _ h => h.resolve_right fun hjump => hjump.2
  apply (hstream _ hm).bind
  intro _ m' hm'
  apply (hstream _ hm').bind
  intro _ m'' hm''
  exact hstream _ hm''

lemma uosioTest_meets (t : Test) (hm : Between failed .main m)
    (hdecides : ∀ c ∈ executedOf m t.steps, Decides c.1 c.2) :
    Meets (uosioTest t) m (fun _ m' => Between (flagAfter failed (executedOf m t.steps)) .main m')
      (fun e _ => e = .outside) := by
  unfold uosioTest
  apply meets_setjmp
  apply meets_bind.2
  apply (steps_meets t.steps hm hdecides).mono
  · intro _ m' hm'
    have hsilent : Between (flagAfter failed (executedOf m t.steps)) .main
        { m' with crt := { m'.crt with disableOutput := false } } := hm'
    show Meets (printVerdict _ _ >>= fun _ => _) _ _ _
    rw [meets_bind]
    apply (printVerdict_meets _ _ hsilent).mono
    · exact fun _ m'' hm'' => hm''
    · rintro e m'' rfl
      exact ⟨nofun, fun _ => rfl⟩
  · rintro e m' (rfl | ⟨rfl, hflag, henv⟩)
    · exact ⟨nofun, fun _ => rfl⟩
    · refine ⟨fun _ => ?_, fun hne => absurd (congrArg Exit.jump hm.2.symm) hne⟩
      have hsilent : Between m'.hasFailed .main
          { m' with crt := { m'.crt with disableOutput := false } } := ⟨rfl, henv⟩
      show Meets (printVerdict _ _ >>= fun _ => _) _ _ _
      rw [meets_bind]
      apply (printVerdict_meets _ _ hsilent).mono
      · exact fun _ m'' hm'' => ⟨hflag.symm, hm''.2⟩
      · exact fun _ _ h => h

lemma flagAfter_append (cs cs' : List (Machine × Step)) :
    flagAfter failed (cs ++ cs') = flagAfter (flagAfter failed cs) cs' := List.foldl_append

/-- Each test takes the flag that those before it have left. -/
lemma tests_meets (tests : List Test) (hm : Between failed .main m)
    (hdecides : ∀ c ∈ executed m tests, Decides c.1 c.2) :
    Meets (forM tests uosioTest) m (fun _ m' => m'.hasFailed = flagAfter failed (executed m tests))
      (fun e _ => e = .outside) := by
  induction tests generalizing m failed with
  | nil => exact hm.1
  | cons t ts ih =>
    unfold executed at hdecides ⊢
    rw [List.forM_cons]
    apply meets_bind.2
    apply (uosioTest_meets t hm fun c hc => hdecides c (List.mem_append_left _ hc)).self.mono
    · rintro _ m' ⟨hm', hrun⟩
      rw [hrun] at hdecides ⊢
      rw [flagAfter_append]
      exact ih hm' fun c hc => hdecides c (List.mem_append_right _ hc)
    · exact fun _ _ h => h.1

/-- The flag at the end is that of the checks that were executed. -/
lemma main_meets (silence : Bool) (tests : List Test)
    (hdecides : ∀ c ∈ executedChecks silence tests, Decides c.1 c.2) :
    Meets (main silence tests) Machine.start
      (fun b m' => b = m'.hasFailed ∧ m'.hasFailed = flagAfter false (executedChecks silence tests))
      (fun e _ => e = .outside) := by
  show Meets (forM tests uosioTest >>= fun _ => _) { Machine.start with crt := .start silence } _ _
  rw [meets_bind]
  have hstart : Between false .main { Machine.start with crt := .start silence } := ⟨rfl, rfl⟩
  apply (tests_meets tests hstart hdecides).mono
  · exact fun _ m' hflag => ⟨rfl, hflag⟩
  · exact fun _ _ h => h

/-- The last check that does not hold decides. -/
lemma flagAfter_iff (cs : List (Machine × Step)) :
    (flagAfter false cs = true ↔ ∃ c ∈ cs, c.2.holds = false) ↔
      ∀ c, lastFailure cs = some c → c.2.clears = false := by
  -- from the end: a check that holds keeps the flag, any other writes it
  induction cs using List.reverseRec with
  | nil => simp [flagAfter, lastFailure]
  | append_singleton cs c ih =>
    unfold lastFailure at ih ⊢
    have hlast : c.2.flag (flagAfter false cs) =
        if c.2.holds then flagAfter false cs else !c.2.clears := rfl
    have hsplit : flagAfter false (cs ++ [c]) = c.2.flag (flagAfter false cs) := flagAfter_append cs [c]
    rw [hsplit, List.filter_append, hlast]
    cases hholds : c.2.holds with
    | true => simpa [hholds, or_and_right, exists_or] using ih
    | false => simp [hholds, or_and_right, exists_or]

/-- When no push goes outside of its buffer and every predicate decides on the buffer as on the text,
the run fails exactly when an executed check does not hold, as long as the last such check is no
`CHECK_ASSERT` or `CHECK_PRINT` that goes on with its test. -/
theorem main_hasFailed_iff (silence : Bool) (tests : List Test)
    (hinside : ∀ m, main silence tests Machine.start ≠ .error .outside m)
    (hdecides : ∀ c ∈ executedChecks silence tests, Decides c.1 c.2) :
    ∃ m, main silence tests Machine.start = .ok m.hasFailed m ∧
      ((m.hasFailed = true ↔ ∃ c ∈ executedChecks silence tests, c.2.holds = false) ↔
        ∀ c, lastFailure (executedChecks silence tests) = some c → c.2.clears = false) := by
  have hmain := main_meets silence tests hdecides
  unfold Meets at hmain
  cases hrun : main silence tests Machine.start with
  | ok b m =>
    rw [hrun] at hmain
    obtain ⟨rfl, hfailed⟩ := hmain
    refine ⟨m, rfl, ?_⟩
    rw [hfailed]
    exact flagAfter_iff _
  | error e m =>
    rw [hrun] at hmain
    rw [hmain] at hrun
    exact absurd hrun (hinside m)

/-- The code under the first check asserts as expected, that under the second one prints something
else, and the operands of the third one differ. -/
def transferTest : Test where
  name := chars "transfer_test"
  steps := [
    .checkAssert (chars "transfer.cpp:transfer_test:9") (literal (chars "overdrawn balance"))
      ⟨chars "sending", some (.assert (chars "overdrawn balance"))⟩,
    .checkPrint (chars "transfer.cpp:transfer_test:10") (literal (chars "sent"))
      ⟨chars "sending", none⟩,
    .requireEqual (chars "from") (chars "to") (chars "transfer.cpp:11") false]

theorem main_hasFailed_iff_transfer :
    ∃ m, main true [transferTest] Machine.start = .ok m.hasFailed m ∧
      ((m.hasFailed = true ↔ ∃ c ∈ executedChecks true [transferTest], c.2.holds = false) ↔
        ∀ c, lastFailure (executedChecks true [transferTest]) = some c → c.2.clears = false) := by
  apply main_hasFailed_iff true [transferTest]
  · have hanswered : answered (main true [transferTest] Machine.start) = some true := by
      decide +kernel
    intro m hrun
    rw [hrun] at hanswered
    cases hanswered
  · apply decides_of_literals
    intro t ht c hc
    obtain rfl := List.mem_singleton.mp ht
    rcases hc with _ | ⟨_, _ | ⟨_, _ | ⟨_, ⟨⟩⟩⟩⟩
    · exact ⟨_, by decide +kernel, rfl⟩
    · exact ⟨_, by decide +kernel, rfl⟩
    · trivial

/-- A failed `CHECK_ASSERT`: the code under it returns. -/
theorem exists_failed_check_ignored :
    ∃ silence tests m, main silence tests Machine.start = .ok m.hasFailed m ∧
      ¬ (m.hasFailed = true ↔ ∃ c ∈ executedChecks silence tests, c.2.holds = false) := by
  let tests : List Test := [⟨chars "transfer_test",
    [.checkAssert (chars "transfer.cpp:transfer_test:9") (literal (chars "overdrawn")) ⟨[], none⟩]⟩]
  have hanswered : answered (main true tests Machine.start) = some false := by decide +kernel
  have hpasses : (after (main true tests Machine.start)).hasFailed = false := by decide +kernel
  have hfails : ∃ c ∈ executedChecks true tests, c.2.holds = false := by decide +kernel
  refine ⟨true, tests, after (main true tests Machine.start), ?_, ?_⟩
  · rw [hpasses]
    exact ok_of_answered hanswered
  · rw [hpasses]
    exact fun h => Bool.false_ne_true (h.mpr hfails)

/-- A predicate that looks for the word `balance` still finds that of the first message behind the
second one, and the test passes. -/
example :
    let pred : Pred := fun _ s => s.drop 10 == chars "balance"
    let steps : List Step := [
      .requireAssert (chars "transfer.cpp:transfer_test:9") pred
        ⟨[], some (.assert (chars "overdrawn balance"))⟩,
      .requireAssert (chars "transfer.cpp:transfer_test:10") pred
        ⟨[], some (.assert (chars "overdrawn"))⟩]
    answered (main true [⟨chars "transfer_test", steps⟩] Machine.start) = some false ∧
      steps.map Step.holds = [true, false] := by
  decide +kernel

end UosioCdt.Native
