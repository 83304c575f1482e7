import PcieDriver.Edu.History

/-!
# What the legacy ioctls came to

A journal keeps every factorial and every DMA test that has returned, and every value that
`inject_fault` took. In between come all the other events of the driver, in any order.
-/

open Base

namespace PcieDriver.Edu

/-! ## The sysfs knob -/

/-- What `kstrtouint` and `inject_fault_store` return instead of 0. -/
inductive StoreErr
  | einval | erange
  deriving DecidableEq

/-- `parsed` is what `kstrtouint` makes of the buffer of `count` bytes. -/
def injectFaultStore (e : EduDev) (parsed : Except StoreErr (BitVec 32)) (count : Nat) :
    EduDev × Except StoreErr Nat :=
  match parsed with
  | .error err => (e, .error err)
  | .ok val => if 1 < val then (e, .error .einval) else ({ e with injectFault := val }, .ok count)

/-! ## The journal -/

/-- A call of `edu_run_factorial` that has returned. -/
structure FactorialCall where
  input : BitVec 32
  /-- Its wait ended with a completion. -/
  woken : Bool
  /-- `output`, or the error. -/
  ret : Except Errno (BitVec 32)
  deriving DecidableEq

/-- A call of `edu_run_dma_test` that has returned. -/
structure TestCall where
  /-- How many of its waits ended with a completion. -/
  legs : Nat
  /-- What was at the start of the slab when it returned. -/
  back : List Byte
  /-- `inject_fault` when it returned, and how many values it had taken. -/
  fault : BitVec 32
  stores : Nat
  ret : Except Errno Unit
  /-- `inject_fault` as it left it. -/
  left : BitVec 32
  deriving DecidableEq

structure Journal where
  sys : Sys
  /-- The input of the factorial under way. -/
  input : BitVec 32
  /-- The waits of the test under way that ended with a completion. -/
  legs : Nat
  factorials : List FactorialCall
  tests : List TestCall
  /-- The values that `inject_fault` took. -/
  stores : List (BitVec 32)

inductive JournalEvent
  | driver (e : Event)
  | injectFault (parsed : Except StoreErr (BitVec 32)) (count : Nat)
  deriving DecidableEq

namespace Journal

/-- The test under way returns `ret` and leaves the device as `after`. -/
def test (s : Journal) (legs : Nat) (after : EduDev) (ret : Except Errno Unit) : TestCall where
  legs := legs
  back := s.sys.dev.slab.get 0 eduDmaTestLen
  fault := s.sys.dev.injectFault
  stores := s.stores.length
  ret := ret
  left := after.injectFault

def inputAfter (s : Journal) : Event → BitVec 32
  | .factorial input => if s.sys.pc = .idle then input else s.input
  | _ => s.input

def legsAfter (s : Journal) : Event → Nat
  | .dmaTest => if s.sys.pc = .idle then 0 else s.legs
  | .wake _ => if s.sys.dev.irqDone ∧ s.sys.pc = .firstWaiting then s.legs + 1 else s.legs
  | _ => s.legs

/-- The factorial that returns in this event. -/
def factorialDone (s : Journal) : Event → Option FactorialCall
  | .wake fact =>
    if s.sys.dev.irqDone ∧ s.sys.pc = .factorialWaiting then some ⟨s.input, true, .ok fact⟩ else none
  | .timeout =>
    if ¬ s.sys.dev.irqDone ∧ s.sys.pc = .factorialWaiting then
      some ⟨s.input, false, .error .etimedout⟩
    else none
  | _ => none

/-- The test that returns in this event. -/
def testDone (s : Journal) : Event → Option TestCall
  | .wake _ =>
    if s.sys.dev.irqDone ∧ s.sys.pc = .secondWaiting then
      some (s.test (s.legs + 1) (dmaTestFinish s.sys.dev).1 (dmaTestFinish s.sys.dev).2)
    else none
  | .timeout =>
    if ¬ s.sys.dev.irqDone ∧ (s.sys.pc = .firstWaiting ∨ s.sys.pc = .secondWaiting) then
      some (s.test s.legs s.sys.dev (waitResult s.sys.dev))
    else none
  | _ => none

end Journal

def journalStep (s : Journal) : JournalEvent → Journal
  | .driver e =>
    { s with
      sys := step s.sys e
      input := s.inputAfter e
      legs := s.legsAfter e
      factorials := s.factorials ++ (s.factorialDone e).toList
      tests := s.tests ++ (s.testDone e).toList }
  | .injectFault parsed count =>
    match injectFaultStore s.sys.dev parsed count with
    | (_, .error _) => s
    | (dev, .ok _) =>
      { s with
        sys := { s.sys with dev := dev }
        stores := s.stores ++ [dev.injectFault] }

/-- The device after `edu_probe`. -/
def journal (slab : Mem) (dmaHandle : BitVec 64) : Journal where
  sys := start (eduProbe slab dmaHandle)
  input := 0
  legs := 0
  factorials := []
  tests := []
  stores := []

/-! ## What a step can do -/

/-- Which ioctl holds `e->lock`, and in which leg a test is. -/
inductive Stage
  | idle | factorial | first | second
  deriving DecidableEq

def LegacyPc.stage : LegacyPc → Stage
  | .idle => .idle
  | .factorialKicked | .factorialWaiting => .factorial
  | .firstKicked | .firstWaiting => .first
  | .secondKicked | .secondWaiting => .second

/-- The fields that only the legacy ioctls and `inject_fault` write. -/
structure SameLegacy (s s' : Sys) : Prop where
  stage : s'.pc.stage = s.pc.stage := by rfl
  factIn : s'.dev.lastFactIn = s.dev.lastFactIn := by rfl
  factOut : s'.dev.lastFactOut = s.dev.lastFactOut := by rfl
  dmaOk : s'.dev.dmaOk = s.dev.dmaOk := by rfl
  fault : s'.dev.injectFault = s.dev.injectFault := by rfl
  errors : s'.dev.statDmaErrors = s.dev.statDmaErrors := by rfl

/-- Everything that a step can do to the legacy ioctls and their fields. -/
inductive JournalEffect (s : Journal) : JournalEvent → Journal → Prop
  | same (e sys') (hsame : SameLegacy s.sys sys') : JournalEffect s e { s with sys := sys' }
  | resetStats : JournalEffect s (.driver .resetStats)
      { s with sys := { s.sys with dev := eduDbgfsStatsWrite s.sys.dev } }
  | factorialStart (input) (hidle : s.sys.pc = .idle) : JournalEffect s (.driver (.factorial input))
      { s with
        sys := { s.sys with dev := (factorialStart s.sys.dev input).1, pc := .factorialKicked }
        input := input }
  | factorialWoken (fact) (hpc : s.sys.pc = .factorialWaiting) : JournalEffect s (.driver (.wake fact))
      { s with
        sys := { s.sys with dev := factorialFinish s.sys.dev fact, pc := .idle }
        factorials := s.factorials ++ [⟨s.input, true, .ok fact⟩] }
  | factorialLate (hpc : s.sys.pc = .factorialWaiting) : JournalEffect s (.driver .timeout)
      { s with
        sys := { s.sys with pc := .idle }
        factorials := s.factorials ++ [⟨s.input, false, .error .etimedout⟩] }
  | testStart (hidle : s.sys.pc = .idle) : JournalEffect s (.driver .dmaTest)
      { s with
        sys := { s.sys with dev := (dmaTestStart s.sys.dev).1, pc := .firstKicked }
        legs := 0 }
  | leg (fact) (hpc : s.sys.pc = .firstWaiting) : JournalEffect s (.driver (.wake fact))
      { s with
        sys := { s.sys with dev := (dmaTestReadBack s.sys.dev).1, pc := .secondKicked }
        legs := s.legs + 1 }
  | testLate (hpc : s.sys.pc = .firstWaiting ∨ s.sys.pc = .secondWaiting) :
      JournalEffect s (.driver .timeout)
        { s with
          sys := { s.sys with pc := .idle }
          tests := s.tests ++ [s.test s.legs s.sys.dev (.error .etimedout)] }
  | testEnd (fact) (hpc : s.sys.pc = .secondWaiting) : JournalEffect s (.driver (.wake fact))
      { s with
        sys := { s.sys with dev := (dmaTestFinish s.sys.dev).1, pc := .idle }
        tests := s.tests ++
          [s.test (s.legs + 1) (dmaTestFinish s.sys.dev).1 (dmaTestFinish s.sys.dev).2] }
  | stored (val count) (hval : val = 0 ∨ val = 1) : JournalEffect s (.injectFault (.ok val) count)
      { s with
        sys := { s.sys with dev := { s.sys.dev with injectFault := val } }
        stores := s.stores ++ [val] }

/-! ### One lemma for each event -/

section
variable (s : Sys)

theorem submit_legacy (client : Nat) (req : EduSubmitReq) :
    SameLegacy s (step s (.submit client req)) := by
  cases hfull : ringFull s.dev.sqTail s.dev.cqHead with
  | true =>
    rw [step_submit_full hfull]
    exact {}
  | false =>
    rw [step_submit_claims hfull]
    exact {}

theorem irq_legacy (stat fact : BitVec 32) : SameLegacy s (step s (.irq stat fact)) := by
  by_cases hstat : stat = 0
  · subst hstat
    rw [step_irq_ignored]
    exact {}
  · cases hfirst : firstInflight s.dev with
    | none =>
      rw [step_irq_idle hstat hfirst]
      exact {}
    | some i =>
      rw [step_irq_posts hstat hfirst]
      exact {}

theorem poll_legacy (client : Nat) : SameLegacy s (step s (.pollCq client)) := by
  by_cases hempty : s.dev.cqHead = s.dev.cqTail
  · rw [step_poll_empty hempty]
    exact {}
  · rw [step_poll_takes hempty]
    exact {}

theorem arm_legacy : SameLegacy s (step s .arm) := by
  have hstep : step s .arm = s.armStep := rfl
  rw [hstep, Sys.armStep]
  split
  · next hpc => exact { stage := by rw [hpc]; rfl }
  · next hpc => exact { stage := by rw [hpc]; rfl }
  · next hpc => exact { stage := by rw [hpc]; rfl }
  · exact {}

end

section
variable {s : Journal}

theorem journalStep_eq {e : Event} {sys : Sys} {input : BitVec 32} {legs : Nat}
    {factorial : Option FactorialCall} {test : Option TestCall} (hsys : step s.sys e = sys)
    (hinput : s.inputAfter e = input) (hlegs : s.legsAfter e = legs)
    (hfactorial : s.factorialDone e = factorial) (htest : s.testDone e = test) :
    journalStep s (.driver e) =
      ⟨sys, input, legs, s.factorials ++ factorial.toList, s.tests ++ test.toList, s.stores⟩ := by
  subst hsys hinput hlegs hfactorial htest
  rfl

theorem journalStep_quiet {e : Event} (hinput : s.inputAfter e = s.input)
    (hlegs : s.legsAfter e = s.legs) (hfactorial : s.factorialDone e = none)
    (htest : s.testDone e = none) : journalStep s (.driver e) = { s with sys := step s.sys e } := by
  rw [journalStep_eq rfl hinput hlegs hfactorial htest, Option.toList_none, Option.toList_none,
    List.append_nil, List.append_nil]

theorem same_effect {e : Event} (hsame : SameLegacy s.sys (step s.sys e))
    (hinput : s.inputAfter e = s.input) (hlegs : s.legsAfter e = s.legs)
    (hfactorial : s.factorialDone e = none) (htest : s.testDone e = none) :
    JournalEffect s (.driver e) (journalStep s (.driver e)) := by
  rw [journalStep_quiet hinput hlegs hfactorial htest]
  exact .same _ _ hsame

theorem step_factorialWoken {fact : BitVec 32} (hdone : s.sys.dev.irqDone = true)
    (hpc : s.sys.pc = .factorialWaiting) :
    JournalEffect s (.driver (.wake fact)) (journalStep s (.driver (.wake fact))) := by
  have hsys : step s.sys (.wake fact) =
      { s.sys with dev := factorialFinish s.sys.dev fact, pc := .idle } := by
    simp only [step, Sys.wakeStep, if_pos hdone, hpc]
  rw [journalStep_eq hsys rfl (if_neg (by simp [hpc])) (if_pos ⟨hdone, hpc⟩)
    (if_neg (by simp [hpc])), Option.toList_none, List.append_nil]
  exact .factorialWoken fact hpc

theorem step_leg {fact : BitVec 32} (hdone : s.sys.dev.irqDone = true)
    (hpc : s.sys.pc = .firstWaiting) :
    JournalEffect s (.driver (.wake fact)) (journalStep s (.driver (.wake fact))) := by
  have hsys : step s.sys (.wake fact) =
      { s.sys with dev := (dmaTestReadBack s.sys.dev).1, pc := .secondKicked } := by
    simp only [step, Sys.wakeStep, if_pos hdone, hpc]
  rw [journalStep_eq hsys rfl (if_pos ⟨hdone, hpc⟩) (if_neg (by simp [hpc]))
    (if_neg (by simp [hpc])), Option.toList_none, Option.toList_none, List.append_nil,
    List.append_nil]
  exact .leg fact hpc

theorem step_testEnd {fact : BitVec 32} (hdone : s.sys.dev.irqDone = true)
    (hpc : s.sys.pc = .secondWaiting) :
    JournalEffect s (.driver (.wake fact)) (journalStep s (.driver (.wake fact))) := by
  have hsys : step s.sys (.wake fact) =
      { s.sys with dev := (dmaTestFinish s.sys.dev).1, pc := .idle } := by
    simp only [step, Sys.wakeStep, if_pos hdone, hpc]
  rw [journalStep_eq hsys rfl (if_neg (by simp [hpc])) (if_neg (by simp [hpc]))
    (if_pos ⟨hdone, hpc⟩), Option.toList_none, List.append_nil]
  exact .testEnd fact hpc

theorem step_unwoken {fact : BitVec 32}
    (h : s.sys.dev.irqDone = true → s.sys.pc ≠ .factorialWaiting ∧ s.sys.pc ≠ .firstWaiting ∧
      s.sys.pc ≠ .secondWaiting) :
    JournalEffect s (.driver (.wake fact)) (journalStep s (.driver (.wake fact))) := by
  have hsys : step s.sys (.wake fact) = s.sys := by
    simp only [step, Sys.wakeStep]
    split
    · next hdone =>
      obtain ⟨hfactorial, hfirst, hsecond⟩ := h hdone
      split <;> first | contradiction | rfl
    · rfl
  apply same_effect
  · rw [hsys]
    exact {}
  · rfl
  · exact if_neg fun hwake => (h hwake.1).2.1 hwake.2
  · exact if_neg fun hwake => (h hwake.1).1 hwake.2
  · exact if_neg fun hwake => (h hwake.1).2.2 hwake.2

theorem wake_journal (fact : BitVec 32) :
    JournalEffect s (.driver (.wake fact)) (journalStep s (.driver (.wake fact))) := by
  by_cases hdone : s.sys.dev.irqDone = true
  · cases hpc : s.sys.pc with
    | factorialWaiting => exact step_factorialWoken hdone hpc
    | firstWaiting => exact step_leg hdone hpc
    | secondWaiting => exact step_testEnd hdone hpc
    | idle | factorialKicked | firstKicked | secondKicked =>
      exact step_unwoken fun _ => by simp [hpc]
  · exact step_unwoken fun hdone' => absurd hdone' hdone

theorem timeout_journal : JournalEffect s (.driver .timeout) (journalStep s (.driver .timeout)) := by
  by_cases hdone : s.sys.dev.irqDone = true
  · apply same_effect
    · simp only [step, Sys.timeoutStep, if_pos hdone]
      exact {}
    · rfl
    · rfl
    · exact if_neg fun hlate => hlate.1 hdone
    · exact if_neg fun hlate => hlate.1 hdone
  · have hret : waitResult s.sys.dev = .error .etimedout := if_neg hdone
    cases hpc : s.sys.pc with
    | factorialWaiting =>
      have hsys : step s.sys .timeout = { s.sys with pc := .idle } := by
        simp only [step, Sys.timeoutStep, if_neg hdone, hpc]
      rw [journalStep_eq hsys rfl rfl (if_pos ⟨hdone, hpc⟩) (if_neg (by simp [hpc])),
        Option.toList_none, List.append_nil]
      exact .factorialLate hpc
    | firstWaiting =>
      have hsys : step s.sys .timeout = { s.sys with pc := .idle } := by
        simp only [step, Sys.timeoutStep, if_neg hdone, hpc]
      rw [journalStep_eq hsys rfl rfl (if_neg (by simp [hpc])) (if_pos ⟨hdone, .inl hpc⟩), hret,
        Option.toList_none, List.append_nil]
      exact .testLate (.inl hpc)
    | secondWaiting =>
      have hsys : step s.sys .timeout = { s.sys with pc := .idle } := by
        simp only [step, Sys.timeoutStep, if_neg hdone, hpc]
      rw [journalStep_eq hsys rfl rfl (if_neg (by simp [hpc])) (if_pos ⟨hdone, .inr hpc⟩), hret,
        Option.toList_none, List.append_nil]
      exact .testLate (.inr hpc)
    | idle | factorialKicked | firstKicked | secondKicked =>
      apply same_effect
      · simp only [step, Sys.timeoutStep, if_neg hdone, hpc]
        exact {}
      · rfl
      · rfl
      · exact if_neg (by simp [hpc])
      · exact if_neg (by simp [hpc])

theorem factorial_journal (input : BitVec 32) :
    JournalEffect s (.driver (.factorial input)) (journalStep s (.driver (.factorial input))) := by
  by_cases hidle : s.sys.pc = .idle
  · have hsys : step s.sys (.factorial input) =
        { s.sys with dev := (factorialStart s.sys.dev input).1, pc := .factorialKicked } :=
      if_pos hidle
    have hinput : s.inputAfter (.factorial input) = input := if_pos hidle
    have hstep : journalStep s (.driver (.factorial input)) = _ :=
      journalStep_eq hsys hinput rfl (Eq.refl none) (Eq.refl none)
    rw [hstep, Option.toList_none, Option.toList_none, List.append_nil, List.append_nil]
    exact .factorialStart input hidle
  · refine same_effect ?_ (if_neg hidle) rfl rfl rfl
    simp only [step, if_neg hidle]
    exact {}

theorem dmaTest_journal : JournalEffect s (.driver .dmaTest) (journalStep s (.driver .dmaTest)) := by
  by_cases hidle : s.sys.pc = .idle
  · have hsys : step s.sys .dmaTest =
        { s.sys with dev := (dmaTestStart s.sys.dev).1, pc := .firstKicked } := if_pos hidle
    have hlegs : s.legsAfter .dmaTest = 0 := if_pos hidle
    have hstep : journalStep s (.driver .dmaTest) = _ :=
      journalStep_eq hsys rfl hlegs (Eq.refl none) (Eq.refl none)
    rw [hstep, Option.toList_none, Option.toList_none, List.append_nil, List.append_nil]
    exact .testStart hidle
  · refine same_effect ?_ rfl (if_neg hidle) rfl rfl
    simp only [step, if_neg hidle]
    exact {}

theorem injectFault_journal (parsed : Except StoreErr (BitVec 32)) (count : Nat) :
    JournalEffect s (.injectFault parsed count) (journalStep s (.injectFault parsed count)) := by
  cases parsed with
  | error err => exact .same _ s.sys {}
  | ok val =>
    by_cases hbig : 1 < val
    · simp only [journalStep, injectFaultStore, if_pos hbig]
      exact .same _ s.sys {}
    · have hval : val = 0 ∨ val = 1 := by
        rw [BitVec.lt_def, show (1 : BitVec 32).toNat = 1 from rfl] at hbig
        rcases Nat.le_one_iff_eq_zero_or_eq_one.mp (not_lt.mp hbig) with h | h
        · exact .inl (BitVec.eq_of_toNat_eq h)
        · exact .inr (BitVec.eq_of_toNat_eq h)
      simp only [journalStep, injectFaultStore, if_neg hbig]
      exact .stored val count hval

/-- **The cases of a step.** -/
theorem journal_effect (e : JournalEvent) : JournalEffect s e (journalStep s e) := by
  cases e with
  | injectFault parsed count => exact injectFault_journal parsed count
  | driver e =>
    cases e with
    | factorial input => exact factorial_journal input
    | dmaTest => exact dmaTest_journal
    | wake fact => exact wake_journal fact
    | timeout => exact timeout_journal
    | resetStats =>
      rw [journalStep_quiet rfl rfl rfl rfl]
      exact .resetStats
    | submit client req => exact same_effect (submit_legacy s.sys client req) rfl rfl rfl rfl
    | irq stat fact => exact same_effect (irq_legacy s.sys stat fact) rfl rfl rfl rfl
    | pollCq client => exact same_effect (poll_legacy s.sys client) rfl rfl rfl rfl
    | arm => exact same_effect (arm_legacy s.sys) rfl rfl rfl rfl
    | «open» | dmaWrite | setEventfd => exact same_effect {} rfl rfl rfl rfl

end

/-! ## How a test ends -/

/-- What a test returns, from what it saw. -/
def TestCall.expected (t : TestCall) : Except Errno Unit :=
  if t.legs ≠ 2 then .error .etimedout
  else if t.back ≠ pattern ∨ t.fault = 1 then .error .eio
  else .ok ()

theorem TestCall.expected_ok (t : TestCall) :
    t.expected = .ok () ↔ t.legs = 2 ∧ t.back = pattern ∧ t.fault ≠ 1 := by
  unfold expected
  split_ifs with hlegs hbad
  · exact ⟨nofun, fun h => absurd h.1 hlegs⟩
  · refine ⟨nofun, fun h => ?_⟩
    rcases hbad with hback | hfault
    · exact absurd h.2.1 hback
    · exact absurd hfault h.2.2
  · rw [not_or, not_not] at hbad
    exact ⟨fun _ => ⟨not_not.mp hlegs, hbad⟩, fun _ => rfl⟩

/-- The error was made up: what came back was right. -/
def TestCall.injected (t : TestCall) : Bool := t.ret = .error .eio ∧ t.back = pattern

/-- The three ways in which `edu_run_dma_test` leaves its comparison. -/
inductive FinishCase (e : EduDev) : EduDev × Except Errno Unit → Prop
  | differs (hback : e.slab.get 0 eduDmaTestLen ≠ pattern) :
      FinishCase e ({ e with statDmaErrors := e.statDmaErrors + 1 }, .error .eio)
  | injected (hback : e.slab.get 0 eduDmaTestLen = pattern) (hfault : e.injectFault = 1) :
      FinishCase e ({ e with injectFault := 0, statDmaErrors := e.statDmaErrors + 1 }, .error .eio)
  | passes (hback : e.slab.get 0 eduDmaTestLen = pattern) (hfault : e.injectFault ≠ 1) :
      FinishCase e ({ e with dmaOk := 1 }, .ok ())

theorem finish_case (e : EduDev) : FinishCase e (dmaTestFinish e) := by
  unfold dmaTestFinish
  split_ifs with hback hfault
  · exact .differs hback
  · exact .injected (not_not.mp hback) hfault
  · exact .passes (not_not.mp hback) hfault

theorem finish_ret (e : EduDev) :
    (dmaTestFinish e).2 = if e.slab.get 0 eduDmaTestLen ≠ pattern ∨ e.injectFault = 1
      then .error .eio else .ok () := by
  have hcase := finish_case e
  generalize dmaTestFinish e = out at hcase ⊢
  cases hcase with
  | differs hback => exact (if_pos (.inl hback)).symm
  | injected _ hfault => exact (if_pos (.inr hfault)).symm
  | passes hback hfault => exact (if_neg (not_or.mpr ⟨not_not.mpr hback, hfault⟩)).symm

end PcieDriver.Edu
