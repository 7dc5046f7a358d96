import CPet.AssertsDoubleProofs

/-! # What a test program reports

    A test program announces each of its tests and runs the checks of its
    body.  A failed check prints its message and aborts; the handler that the
    program has registered for that signal turns the abort into the exit status 139.

    So the exit status is 0 exactly when all checks pass, and otherwise the
    output ends with the message of the first failed one.  What
    it leaves in memory depends on that check: only the message for two strings
    is stored past its buffer. -/

namespace CPetTestRun

open CPetFormat CPetStrconcat CPetAsserts CPetAssertsDouble
open CPetIeee (Ieee)

/-- `GREEN`. -/
def green : List UInt8 := literalBytes "\x1b[0;32m"

/-- The line of `logInfo(str)`. -/
def infoLine (str : List UInt8) : List UInt8 :=
  render (parse "%s[INFO] %s%s\n".toList) [green, str, reset]

/-- The line of `logError(str)`. -/
def errorLine (str : List UInt8) : List UInt8 :=
  render (parse "%s[ERROR] %s%s\n".toList) [red, str, reset]

/-- `logInfo(str)`. -/
def logInfo (str : List UInt8) (s : AssertState) : AssertState :=
  { s with stdout := s.stdout ++ infoLine str }

/-- A step in the body of a test. -/
inductive Check where
  | equalsDouble (expected actual absError : Ieee)
  | equalsString (expected actual : CStr)
  | info (str : List UInt8)

def runCheck : Check → AssertState → AssertState
  | .equalsDouble expected actual absError => assertEqualsDouble expected actual absError
  | .equalsString expected actual => assertEqualsString expected actual
  | .info str => logInfo str

/-- A body, which an abort ends. -/
def runChecks (cs : List Check) (s : AssertState) : AssertState :=
  cs.foldl (fun s c => if s.aborted then s else runCheck c s) s

/-- A test function. -/
structure Test where
  name : List UInt8
  body : List Check

/-- What `RUN_TEST` announces. -/
def announcement (t : Test) : List UInt8 := literalBytes " " ++ t.name ++ literalBytes "()"

/-- `RUN_TEST(testFunction)`. -/
def runTest (s : AssertState) (t : Test) : AssertState :=
  if s.aborted then s else runChecks t.body (logInfo (announcement t) s)

/-- The `main` of a test program, which has registered its handler. -/
def testMain (title : List UInt8) (ts : List Test) : AssertState :=
  ts.foldl runTest (logInfo title ⟨[], [], false⟩)

/-- The exit status: `signal_handler_log_stacktrace` ends an aborted program with 139. -/
def exitStatus (s : AssertState) : Int := if s.aborted then 139 else 0

/-! ## One step -/

/-- The step returns. -/
def Check.passes : Check → Bool
  | .equalsDouble expected actual absError => !rejects expected actual absError
  | .equalsString expected actual => decide (expected.text = actual.text)
  | .info _ => true

/-- What a step prints that returns. -/
def Check.said : Check → List UInt8
  | .equalsDouble _ _ _ => []
  | .equalsString _ _ => []
  | .info str => infoLine str

/-- The message of a step that does not. -/
def Check.message : Check → List UInt8
  | .equalsDouble expected actual _ => doubleMessage expected actual
  | .equalsString expected actual => CPetAsserts.message expected actual
  | .info _ => []

/-- What a step prints that does not return. -/
def Check.complaint (c : Check) : List UInt8 :=
  errorLine (literalBytes "Test failed:") ++ errorLine c.message

/-- A check that passes prints what it has to say, -/
theorem runCheck_of_passes {c : Check} (h : c.passes = true) (s : AssertState) :
    runCheck c s = { s with stdout := s.stdout ++ c.said } := by
  cases c with
  | equalsDouble expected actual absError =>
      have hreject : rejects expected actual absError = false := by
        rwa [Check.passes, Bool.not_eq_true'] at h
      rw [runCheck, (passes_iff_not_rejects _ _ _).mpr hreject s, Check.said, List.append_nil]
  | equalsString expected actual =>
      rw [Check.passes, decide_eq_true_eq] at h
      rw [runCheck, assertEqualsString_of_eq h, Check.said, List.append_nil]
  | info str => rfl

/-- and one that fails prints its complaint and aborts. -/
theorem runCheck_of_fails {c : Check} (h : c.passes = false) (s : AssertState) :
    (runCheck c s).aborted = true ∧ (runCheck c s).stdout = s.stdout ++ c.complaint := by
  cases c with
  | equalsDouble expected actual absError =>
      have hreject : rejects expected actual absError = true := by
        rwa [Check.passes, Bool.not_eq_false'] at h
      rw [runCheck, assertEqualsDouble, if_pos hreject]
      refine ⟨rfl, ?_⟩
      rw [Check.complaint, ← List.append_assoc]
      rfl
  | equalsString expected actual =>
      rw [Check.passes, decide_eq_false_iff_not] at h
      have hcmp := mt (strcmp_eq_zero_iff _ _ expected.nulFree actual.nulFree).mp h
      rw [runCheck, assertEqualsString, if_pos hcmp]
      refine ⟨rfl, ?_⟩
      rw [Check.complaint, ← List.append_assoc]
      rfl
  | info str => exact Bool.noConfusion h

/-- A step that fails stores inside its buffer unless it compares strings. -/
theorem storesInside_of_fails {c : Check} (h : c.passes = false) (s : AssertState) :
    StoresInside s (runCheck c s) ↔ ∃ e a t, c = .equalsDouble e a t := by
  cases c with
  | equalsDouble expected actual absError =>
      refine iff_of_true ?_ ⟨expected, actual, absError, rfl⟩
      exact storesInside_assertEqualsDouble expected actual absError s
  | equalsString expected actual =>
      refine iff_of_false ?_ (by rintro ⟨e, a, t, hc⟩; cases hc)
      rw [Check.passes, decide_eq_false_iff_not] at h
      rw [runCheck, StoresInside, (assertEqualsString_of_ne h s).2, ← StoresInside,
        storesInside_sprintfTo_iff]
      exact not_fits_message expected actual
  | info str => exact Bool.noConfusion h

/-! ## All steps -/

/-- An abort ends a body. -/
theorem runChecks_aborted (cs : List Check) {s : AssertState} (h : s.aborted = true) :
    runChecks cs s = s := by
  induction cs with
  | nil => rfl
  | cons c cs ih =>
      rw [runChecks, List.foldl_cons, if_pos h]
      exact ih

theorem runChecks_cons (c : Check) (cs : List Check) {s : AssertState} (h : s.aborted = false) :
    runChecks (c :: cs) s = runChecks cs (runCheck c s) := by
  rw [runChecks, List.foldl_cons, h, if_neg Bool.false_ne_true]
  rfl

/-- What a list of steps leaves behind: the steps up to the first failing one have
    had their say, and then that one. -/
structure Reported (cs : List Check) (s s' : AssertState) : Prop where
  aborted : s'.aborted = !cs.all Check.passes
  stdout : s'.stdout = s.stdout ++ (cs.takeWhile Check.passes).flatMap Check.said
    ++ ((cs.dropWhile Check.passes).take 1).flatMap Check.complaint
  inside : StoresInside s s'
    ↔ ∀ c ∈ (cs.dropWhile Check.passes).head?, ∃ e a t, c = .equalsDouble e a t

/-- **ALL STEPS**, by induction on them. -/
theorem reported_runChecks (cs : List Check) :
    ∀ s : AssertState, s.aborted = false → Reported cs s (runChecks cs s) := by
  induction cs with
  | nil =>
      intro s h
      refine ⟨h, ?_, ?_⟩
      · simp [runChecks]
      · exact iff_of_true ⟨[], rfl, fun st hst => absurd hst List.not_mem_nil⟩
          (fun c hc => by cases hc)
  | cons c cs ih =>
      intro s h
      rw [runChecks_cons c cs h]
      by_cases hc : c.passes = true
      · rw [runCheck_of_passes hc]
        obtain ⟨haborted, hstdout, hinside⟩ := ih { s with stdout := s.stdout ++ c.said } h
        refine ⟨?_, ?_, ?_⟩
        · rw [haborted, List.all_cons, hc, Bool.true_and]
        · rw [hstdout, List.takeWhile_cons_of_pos hc, List.dropWhile_cons_of_pos hc,
            List.flatMap_cons, List.append_assoc s.stdout]
        · rw [List.dropWhile_cons_of_pos hc, ← hinside]
          exact Iff.rfl
      · have hc' : c.passes = false := Bool.not_eq_true _ ▸ hc
        obtain ⟨haborted, hstdout⟩ := runCheck_of_fails hc' s
        rw [runChecks_aborted cs haborted]
        refine ⟨?_, ?_, ?_⟩
        · rw [haborted, List.all_cons, hc', Bool.false_and]
          rfl
        · rw [hstdout, List.takeWhile_cons_of_neg hc, List.dropWhile_cons_of_neg hc]
          simp
        · rw [List.dropWhile_cons_of_neg hc, storesInside_of_fails hc' s]
          constructor
          · rintro hdouble c' hc'
            cases hc'
            exact hdouble
          · intro hall
            exact hall c rfl

/-! ## The program -/

/-- All steps of a program, the announcements among them. -/
def steps (title : List UInt8) (ts : List Test) : List Check :=
  .info title :: ts.flatMap (fun t => .info (announcement t) :: t.body)

/-- Checks run one after the other. -/
theorem runChecks_append (cs ds : List Check) (s : AssertState) :
    runChecks (cs ++ ds) s = runChecks ds (runChecks cs s) := List.foldl_append

/-- Running the tests is running their steps. -/
theorem foldl_runTest (ts : List Test) (s : AssertState) :
    ts.foldl runTest s
      = runChecks (ts.flatMap (fun t => .info (announcement t) :: t.body)) s := by
  induction ts generalizing s with
  | nil => rfl
  | cons t ts ih =>
      rw [List.foldl_cons, ih, List.flatMap_cons, runChecks_append]
      congr 1
      rw [runTest]
      by_cases h : s.aborted = true
      · rw [if_pos h, runChecks_aborted _ h]
      · rw [if_neg h, runChecks_cons _ _ (Bool.not_eq_true _ ▸ h)]
        rfl

theorem testMain_eq (title : List UInt8) (ts : List Test) :
    testMain title ts = runChecks (steps title ts) ⟨[], [], false⟩ := by
  rw [testMain, foldl_runTest, steps, runChecks_cons _ _ rfl]
  rfl

theorem exitStatus_testMain (title : List UInt8) (ts : List Test) :
    exitStatus (testMain title ts)
      = if (steps title ts).all Check.passes then 0 else 139 := by
  have haborted := (reported_runChecks (steps title ts) ⟨[], [], false⟩ rfl).aborted
  rw [exitStatus, testMain_eq, haborted]
  cases (steps title ts).all Check.passes with
  | true => rfl
  | false => rfl

/-- The announcements pass. -/
theorem all_steps (title : List UInt8) (ts : List Test) :
    (steps title ts).all Check.passes = ts.all (fun t => t.body.all Check.passes) := by
  rw [steps, List.all_cons, Check.passes, Bool.true_and, List.all_flatMap]
  rfl

/-- **REPORT**: a test program exits with 0 exactly when every check passes and with
    139 otherwise; it has then printed what the steps before the first failed
    check print, and the message of that check; and it has stored past no buffer
    unless that check compares strings. -/
theorem testMain_reports (title : List UInt8) (ts : List Test) :
    exitStatus (testMain title ts)
        = (if (steps title ts).all Check.passes then 0 else 139)
      ∧ (testMain title ts).stdout
        = ((steps title ts).takeWhile Check.passes).flatMap Check.said
          ++ (((steps title ts).dropWhile Check.passes).take 1).flatMap Check.complaint
      ∧ ((∀ st ∈ (testMain title ts).stores, st.InBounds)
        ↔ ∀ c ∈ ((steps title ts).dropWhile Check.passes).head?,
          ∃ e a t, c = .equalsDouble e a t) := by
  obtain ⟨-, hstdout, hinside⟩ := reported_runChecks (steps title ts) ⟨[], [], false⟩ rfl
  refine ⟨exitStatus_testMain title ts, ?_, ?_⟩
  · rw [testMain_eq, hstdout]
    rfl
  · rw [testMain_eq, ← hinside]
    constructor
    · intro hall
      exact ⟨_, (List.append_nil _).symm, hall⟩
    · rintro ⟨written, hwritten, hall⟩
      rw [hwritten]
      simpa using hall

end CPetTestRun
