import PcieDriver.Edu.Caller
import PcieDriver.Edu.RoundTrips
import PcieDriver.Edu.Serving
import PcieDriver.Edu.StateReport

/-!
# Blocking calls

A program calls the legacy ioctls one after another. Each gives the device its work and waits for the
handler. What the program sees is what a machine without waits would tell it, but for the calls whose
interrupt is not handled in time.
-/

open Base

namespace PcieDriver.Edu

/-! ## A program with the device -/

/-- What goes on in one wait: from the kick to `reinit_completion`, and then until the wait ends. -/
structure Leg where
  early : List BoardEvent
  late : List BoardEvent

inductive Call
  | factorial (n : BitVec 32)
  | dmaTest
  | getState

/-- A call, with what goes on before it and in its waits. -/
structure Turn where
  call : Call
  before : List BoardEvent
  first : Leg
  second : Leg

structure Turn.Ambient (t : Turn) : Prop where
  before : ∀ e ∈ t.before, e.Ambient
  first : ∀ e ∈ t.first.early ++ t.first.late, e.Ambient
  second : ∀ e ∈ t.second.early ++ t.second.late, e.Ambient

structure EduFactReq where
  input : BitVec 32
  output : BitVec 32
  irqStatus : BitVec 32
  deriving DecidableEq

inductive Response
  | factorial (req : EduFactReq)
  | dmaTest
  | state (state : EduStateReq)
  deriving DecidableEq

namespace Board

section
variable (factorial : BitVec 32 → BitVec 32)

/-- `edu_wait_irq`, up to the end of its wait. -/
def waitIrq (b : Board) (leg : Leg) : Board :=
  run (boardStep factorial) (boardStep factorial (run (boardStep factorial) b leg.early)
    (.driver .arm)) leg.late

/-- `edu_run_factorial`. -/
def runFactorial (b : Board) (n : BitVec 32) (leg : Leg) : Board × Except Errno EduFactReq :=
  let b := (boardStep factorial b (.driver (.factorial n))).waitIrq factorial leg
  match waitResult b.sys.dev with
  | .error err => (boardStep factorial b (.driver .timeout), .error err)
  | .ok () =>
    (boardStep factorial b (.driver (.wake b.regFact)), .ok ⟨n, b.regFact, b.sys.dev.lastIrq⟩)

/-- `edu_run_dma_test`. -/
def runDmaTest (b : Board) (first second : Leg) : Board × Except Errno Unit :=
  let b := (boardStep factorial b (.driver .dmaTest)).waitIrq factorial first
  match waitResult b.sys.dev with
  | .error err => (boardStep factorial b (.driver .timeout), .error err)
  | .ok () =>
    let b := (boardStep factorial b (.driver (.wake b.regFact))).waitIrq factorial second
    match waitResult b.sys.dev with
    | .error err => (boardStep factorial b (.driver .timeout), .error err)
    | .ok () =>
      (boardStep factorial b (.driver (.wake b.regFact)), (dmaTestFinish b.sys.dev).2)

/-- `edu_ioctl` for the legacy requests, where copying works. -/
def ioctl (b : Board) (t : Turn) : Board × Except Errno Response :=
  let b := run (boardStep factorial) b t.before
  match t.call with
  | .factorial n =>
    match b.runFactorial factorial n t.first with
    | (b, .ok req) => (b, .ok (.factorial req))
    | (b, .error _) => (b, .error .etimedout)
  | .dmaTest =>
    let (b, ret) := b.runDmaTest factorial t.first t.second
    (b, ret.map fun _ => .dmaTest)
  | .getState => (b, (eduIocGetState b.sys.dev true).map .state)

/-- The calls of a program that goes on after `-EIO` and ends at a timeout. -/
def ioctls (b : Board) : List Turn → List (Except Errno Response)
  | [] => []
  | t :: ts =>
    match b.ioctl factorial t with
    | (_, .error .etimedout) => [.error .etimedout]
    | (b, ret) => ret :: b.ioctls ts

end

end Board

/-! ## The machine without waits -/

/-- What the calls are about: the state that they report, and the fault that is armed. -/
structure Record where
  state : EduStateReq
  fault : BitVec 32

/-- The interrupt of the job is handled before the wait ends, and not so early that
`reinit_completion` forgets it. -/
def Leg.Serves (leg : Leg) (j : Job) : Prop :=
  (errand j).Sublist (leg.early ++ leg.late) ∧ ¬ (errand j).Sublist leg.early

instance (leg : Leg) (j : Job) : Decidable (leg.Serves j) := inferInstanceAs (Decidable (_ ∧ _))

/-- What a wait leaves in the buffer, which was zeroed before it. -/
def Leg.back (leg : Leg) : List Byte :=
  (run writeBack (fun _ => 0) (leg.early ++ leg.late)).get 0 eduDmaTestLen

namespace Record

/-- What the driver remembers. -/
def of (e : EduDev) : Record := ⟨⟨e.lastIrq, e.lastFactIn, e.lastFactOut, e.dmaOk⟩, e.injectFault⟩

def computes (r : Record) (n out : BitVec 32) : Record × Except Errno Response :=
  let irq := (Work.factorial n).irqBit
  ({ r with state := ⟨irq, n, out, r.state.dmaOk⟩ }, .ok (.factorial ⟨n, out, irq⟩))

def tests (r : Record) (back : List Byte) : Record × Except Errno Response :=
  let r := { r with state.lastIrq := Work.dma.irqBit }
  if back ≠ pattern then (r, .error .eio)
  else if r.fault = 1 then ({ r with fault := 0 }, .error .eio)
  else ({ r with state.dmaOk := 1 }, .ok .dmaTest)

def answer (factorial : BitVec 32 → BitVec 32) (r : Record) (kicks : Nat) (t : Turn) :
    Record × Except Errno Response :=
  match t.call with
  | .factorial n =>
    if t.first.Serves (legacyJob kicks (.factorial n)) then r.computes n (factorial n)
    else (r, .error .etimedout)
  | .dmaTest =>
    if t.first.Serves (legacyJob kicks .dma) ∧ t.second.Serves (legacyJob (kicks + 1) .dma) then
      r.tests t.second.back
    else (r, .error .etimedout)
  | .getState => (r, .ok (.state r.state))

end Record

def Call.kicks : Call → Nat
  | .factorial _ => 1
  | .dmaTest => 2
  | .getState => 0

def Record.answers (factorial : BitVec 32 → BitVec 32) (r : Record) (kicks : Nat) :
    List Turn → List (Except Errno Response)
  | [] => []
  | t :: ts =>
    match r.answer factorial kicks t with
    | (_, .error .etimedout) => [.error .etimedout]
    | (r, ret) => ret :: r.answers factorial (kicks + t.call.kicks) ts

/-! ## One wait -/

section
variable {factorial : BitVec 32 → BitVec 32} {b b' : Board} {j : Job} {leg : Leg}

theorem arm_sys (h : b.sys.pc.kicked = true) : (boardStep factorial b (.driver .arm)).sys =
    { b.sys with dev := reinitCompletion b.sys.dev, pc := b.sys.pc.armed } := by
  show b.sys.armStep = _
  unfold Sys.armStep
  cases hpc : b.sys.pc <;> first | rfl | (rw [hpc] at h; cases h)

theorem Serving.arm {todo : List BoardEvent} (h : Serving factorial j todo b)
    (hpc : b.sys.pc.kicked = true) :
    Serving factorial j todo (boardStep factorial b (.driver .arm)) := by
  have hboard : boardStep factorial b (.driver .arm) =
      { b with sys := (boardStep factorial b (.driver .arm)).sys } := rfl
  rw [hboard]
  exact h.withSys (by rw [arm_sys hpc]; rfl)

/-- What a wait leaves. -/
structure LegEnds (factorial : BitVec 32 → BitVec 32) (j : Job) (leg : Leg) (b b' : Board) : Prop where
  pc : b'.sys.pc = b.sys.pc.armed
  done : b'.sys.dev.irqDone = decide (leg.Serves j)
  calm : leg.Serves j → b'.Calm (j.serial + 1)
  fact : leg.Serves j → b'.Computed factorial j.work
  irq : leg.Serves j → b'.sys.dev.lastIrq = j.work.irqBit
  factIn : b'.sys.dev.lastFactIn = b.sys.dev.lastFactIn
  factOut : b'.sys.dev.lastFactOut = b.sys.dev.lastFactOut
  dmaOk : b'.sys.dev.dmaOk = b.sys.dev.dmaOk
  fault : b'.sys.dev.injectFault = b.sys.dev.injectFault
  payload : ∀ a < eduDmaTestLen,
    b'.sys.dev.slab a = run writeBack b.sys.dev.slab (leg.early ++ leg.late) a

/-- **A wait succeeds exactly if the handler ends its run for the job in it.** -/
theorem leg_ends (hserving : Serving factorial j (errand j) b) (hpc : b.sys.pc.kicked = true)
    (hleg : ∀ e ∈ leg.early ++ leg.late, e.Ambient) :
    LegEnds factorial j leg b (b.waitIrq factorial leg) := by
  rw [List.forall_mem_append] at hleg
  obtain ⟨hearly, helapsed⟩ := hserving.events hleg.1
  have hkicked : (run (boardStep factorial) b leg.early).sys.pc.kicked = true := by
    rw [helapsed.pc]
    exact hpc
  obtain ⟨hend, hlate⟩ := (hearly.arm hkicked).events hleg.2
  rw [arm_sys hkicked] at hlate
  have hlands : Lands (run advance (errand j) leg.early) leg.late ↔ leg.Serves j := by
    unfold Lands Leg.Serves
    rw [← run_append, run_advance_iff, ne_eq, run_advance_iff, and_comm]
  have hserved (h : leg.Serves j) : Serving factorial j [] (b.waitIrq factorial leg) := by
    have hnil := (hlands.mpr h).2
    rw [hnil] at hend
    exact hend
  refine ⟨hlate.pc.trans (congrArg LegacyPc.armed helapsed.pc), ?_, ?_, ?_, ?_,
    hlate.factIn.trans helapsed.factIn, hlate.factOut.trans helapsed.factOut,
    hlate.dmaOk.trans helapsed.dmaOk, hlate.fault.trans helapsed.fault, ?_⟩
  · rw [Bool.eq_iff_iff, decide_eq_true_iff, ← hlands]
    exact hlate.done.trans (or_iff_right nofun)
  · intro h
    cases hserved h with
    | ended hcalm => exact hcalm
  · intro h
    cases hserved h with
    | ended _ hfact => exact hfact
  · exact fun h => hlate.irq (hlands.mpr h)
  · intro a ha
    rw [run_append]
    exact (hlate.payload a ha).trans (writeBack_agree helapsed.payload leg.late a ha)

end

/-! ## One call -/

section
variable {factorial : BitVec 32 → BitVec 32} {b : Board} {kicks : Nat} {t : Turn}

/-- The calls go by the record, and so does all that follows a call that is served in time. -/
structure Follows (kicks : Nat) (out : Board × Except Errno Response)
    (answer : Record × Except Errno Response) : Prop where
  ret : out.2 = answer.2
  calm : answer.2 ≠ .error .etimedout → out.1.Calm kicks
  pc : answer.2 ≠ .error .etimedout → out.1.sys.pc = .idle
  record : answer.2 ≠ .error .etimedout → .of out.1.sys.dev = answer.1

theorem follows_late {b : Board} {r : Record} :
    Follows kicks (b, .error .etimedout) (r, .error .etimedout) :=
  ⟨rfl, fun h => absurd rfl h, fun h => absurd rfl h, fun h => absurd rfl h⟩

theorem serving_begin (hcalm : b.Calm kicks) {w : Work} {e : BoardEvent}
    (hdevice : b.deviceStep factorial e = b.begin .legacy w)
    (hinflight : (b.driverStep e).dev.inflight = b.sys.dev.inflight) :
    Serving factorial (legacyJob kicks w) (errand (legacyJob kicks w)) (boardStep factorial b e) := by
  rw [boardStep, hdevice]
  refine .running ⟨by rw [hinflight]; exact hcalm.inflight, hcalm.unkicked, ?_, ?_, hcalm.finished,
    hcalm.irqStat, hcalm.handler⟩
  · simp [Board.begin, hcalm.kicks, legacyJob]
  · simp [Board.begin, hcalm.running, hcalm.kicks, legacyJob]

theorem waitResult_serves {j : Job} {leg : Leg} {b' : Board} (h : LegEnds factorial j leg b b') :
    waitResult b'.sys.dev = if leg.Serves j then .ok () else .error .etimedout := by
  unfold waitResult
  rw [h.done]
  simp only [decide_eq_true_eq]

theorem wake_factorial (hdone : b.sys.dev.irqDone = true) (hpc : b.sys.pc = .factorialWaiting) :
    boardStep factorial b (.driver (.wake b.regFact)) =
      { b with sys := { b.sys with dev := factorialFinish b.sys.dev b.regFact, pc := .idle } } := by
  have hdriver : b.driverStep (.driver (.wake b.regFact)) =
      { b.sys with dev := factorialFinish b.sys.dev b.regFact, pc := .idle } := by
    show b.sys.wakeStep b.regFact = _
    simp only [Sys.wakeStep, hdone, if_true, hpc]
  have hdevice : b.deviceStep factorial (.driver (.wake b.regFact)) = b := by
    show b.legacyStep (b.sys.dev.irqDone ∧ b.sys.pc = .firstWaiting) _ = b
    simp [Board.legacyStep, hpc]
  rw [boardStep, hdevice, hdriver]

theorem factorial_follows (hcalm : b.Calm kicks) (hpc : b.sys.pc = .idle) (n : BitVec 32) {leg : Leg}
    (hleg : ∀ e ∈ leg.early ++ leg.late, e.Ambient) :
    Follows (kicks + 1)
      (match b.runFactorial factorial n leg with
        | (b, .ok req) => (b, .ok (.factorial req))
        | (b, .error _) => (b, .error .etimedout))
      (if leg.Serves (legacyJob kicks (.factorial n)) then
        (Record.of b.sys.dev).computes n (factorial n)
      else (.of b.sys.dev, .error .etimedout)) := by
  have hdevice : b.deviceStep factorial (.driver (.factorial n)) = b.begin .legacy (.factorial n) := by
    show b.legacyStep (b.sys.pc = .idle) (factorialStart b.sys.dev n).2 = _
    rw [Board.legacyStep, if_pos (decide_eq_true hpc), writes_factorialStart]
  have hsys : (boardStep factorial b (.driver (.factorial n))).sys =
      { b.sys with dev := (factorialStart b.sys.dev n).1, pc := .factorialKicked } := if_pos hpc
  have hserving := serving_begin hcalm hdevice (congrArg (·.dev.inflight) hsys)
  have hend := leg_ends hserving (by rw [hsys]; rfl) hleg
  unfold Board.runFactorial
  generalize (boardStep factorial b (.driver (.factorial n))).waitIrq factorial leg = b' at hend ⊢
  simp only [waitResult_serves hend]
  by_cases hin : leg.Serves (legacyJob kicks (.factorial n))
  · have hfact := hend.fact hin n rfl
    have hirq := hend.irq hin
    have hdone : b'.sys.dev.irqDone = true := hend.done.trans (decide_eq_true hin)
    have hpc' : b'.sys.pc = .factorialWaiting := by rw [hend.pc, hsys]; rfl
    simp only [if_pos hin, wake_factorial hdone hpc']
    refine ⟨?_, fun _ => (hend.calm hin).withSys rfl, fun _ => rfl, fun _ => ?_⟩
    · simp [Record.computes, hfact, hirq, legacyJob]
    · simp [Record.computes, Record.of, factorialFinish, hfact, hirq, legacyJob, hend.factIn,
        hend.dmaOk, hend.fault, hsys, factorialStart]
  · simp only [if_neg hin]
    exact follows_late

theorem zeroed (slab : Mem) : ∀ a < eduDmaTestLen, setPayload slab zeroPayload a = 0 := by
  intro a ha
  have hlen : zeroPayload.take eduDmaTestLen = zeroPayload := List.take_of_length_le (by simp [zeroPayload])
  rw [setPayload, hlen, Mem.put_front _ _ (by simpa [zeroPayload] using ha)]
  simp [zeroPayload, ha]

theorem get_back (slab : Mem) {slab' : Mem} {leg : Leg} (h : ∀ a < eduDmaTestLen,
    slab' a = run writeBack (setPayload slab zeroPayload) (leg.early ++ leg.late) a) :
    slab'.get 0 eduDmaTestLen = leg.back := by
  refine Mem.get_congr fun a _ ha => ?_
  rw [Nat.zero_add] at ha
  rw [h a ha]
  exact writeBack_agree (zeroed slab) _ a ha

/-- The end of a DMA test, as its caller and its record see it. -/
theorem finish_tests {r : Record} {e : EduDev}
    (hr : Record.of e = { r with state.lastIrq := Work.dma.irqBit }) :
    Record.of (dmaTestFinish e).1 = (r.tests (e.slab.get 0 eduDmaTestLen)).1 ∧
      ((dmaTestFinish e).2.map fun _ => Response.dmaTest) = (r.tests (e.slab.get 0 eduDmaTestLen)).2 := by
  obtain ⟨⟨irq, factIn, factOut, ok⟩, fault⟩ := r
  simp only [Record.of, Record.mk.injEq, EduStateReq.mk.injEq] at hr
  obtain ⟨⟨hirq, rfl, rfl, rfl⟩, rfl⟩ := hr
  unfold dmaTestFinish Record.tests Record.of
  by_cases hback : e.slab.get 0 eduDmaTestLen = pattern
  · by_cases hfault : e.injectFault = 1
    · simp only [ne_eq, hback, not_true_eq_false, if_false, hfault, if_true, hirq, Except.map, and_self]
    · simp only [ne_eq, hback, not_true_eq_false, if_false, hfault, hirq, Except.map, and_self]
  · simp only [ne_eq, hback, not_false_eq_true, if_true, hirq, Except.map, and_self]

theorem wake_first (factorial : BitVec 32 → BitVec 32) (hdone : b.sys.dev.irqDone = true)
    (hpc : b.sys.pc = .firstWaiting) :
    b.deviceStep factorial (.driver (.wake b.regFact)) = b.begin .legacy .dma ∧
      b.driverStep (.driver (.wake b.regFact)) =
        { b.sys with dev := (dmaTestReadBack b.sys.dev).1, pc := .secondKicked } := by
  constructor
  · show b.legacyStep (b.sys.dev.irqDone ∧ b.sys.pc = .firstWaiting) (dmaTestReadBack b.sys.dev).2 = _
    rw [Board.legacyStep, if_pos (decide_eq_true ⟨hdone, hpc⟩), writes_readBack]
  · show b.sys.wakeStep b.regFact = _
    simp only [Sys.wakeStep, hdone, if_true, hpc]

theorem wake_second (hdone : b.sys.dev.irqDone = true) (hpc : b.sys.pc = .secondWaiting) :
    boardStep factorial b (.driver (.wake b.regFact)) =
      { b with sys := { b.sys with dev := (dmaTestFinish b.sys.dev).1, pc := .idle } } := by
  have hdriver : b.driverStep (.driver (.wake b.regFact)) =
      { b.sys with dev := (dmaTestFinish b.sys.dev).1, pc := .idle } := by
    show b.sys.wakeStep b.regFact = _
    simp only [Sys.wakeStep, hdone, if_true, hpc]
  have hdevice : b.deviceStep factorial (.driver (.wake b.regFact)) = b := by
    show b.legacyStep (b.sys.dev.irqDone ∧ b.sys.pc = .firstWaiting) _ = b
    simp [Board.legacyStep, hpc]
  rw [boardStep, hdevice, hdriver]

theorem dmaTestFinish_inflight (e : EduDev) : (dmaTestFinish e).1.inflight = e.inflight := by
  obtain ⟨_, _, _, hfinish⟩ := dmaTestFinish_eq e
  rw [hfinish]

theorem dmaTest_follows (hcalm : b.Calm kicks) (hpc : b.sys.pc = .idle) {first second : Leg}
    (hfirst : ∀ e ∈ first.early ++ first.late, e.Ambient)
    (hsecond : ∀ e ∈ second.early ++ second.late, e.Ambient) :
    Follows (kicks + 2)
      ((b.runDmaTest factorial first second).1,
        (b.runDmaTest factorial first second).2.map fun _ => .dmaTest)
      (if first.Serves (legacyJob kicks .dma) ∧ second.Serves (legacyJob (kicks + 1) .dma) then
        (Record.of b.sys.dev).tests second.back
      else (.of b.sys.dev, .error .etimedout)) := by
  have hdevice : b.deviceStep factorial (.driver .dmaTest) = b.begin .legacy .dma := by
    show b.legacyStep (b.sys.pc = .idle) (dmaTestStart b.sys.dev).2 = _
    rw [Board.legacyStep, if_pos (decide_eq_true hpc), writes_dmaTestStart]
  have hsys : (boardStep factorial b (.driver .dmaTest)).sys =
      { b.sys with dev := (dmaTestStart b.sys.dev).1, pc := .firstKicked } := if_pos hpc
  have hserving := serving_begin hcalm hdevice (congrArg (·.dev.inflight) hsys)
  have hend := leg_ends hserving (by rw [hsys]; rfl) hfirst
  unfold Board.runDmaTest
  generalize (boardStep factorial b (.driver .dmaTest)).waitIrq factorial first = b' at hend ⊢
  simp only [waitResult_serves hend]
  by_cases hin : first.Serves (legacyJob kicks .dma)
  · have hdone : b'.sys.dev.irqDone = true := hend.done.trans (decide_eq_true hin)
    have hpc' : b'.sys.pc = .firstWaiting := by rw [hend.pc, hsys]; rfl
    obtain ⟨hdevice', hsys'⟩ := wake_first factorial hdone hpc'
    have hcalm' : b'.Calm (kicks + 1) := hend.calm hin
    have hserving' := serving_begin hcalm' hdevice' (congrArg (·.dev.inflight) hsys')
    replace hsys' : (boardStep factorial b' (.driver (.wake b'.regFact))).sys =
      { b'.sys with dev := (dmaTestReadBack b'.sys.dev).1, pc := .secondKicked } := hsys'
    have hend' := leg_ends hserving' (by rw [hsys']; rfl) hsecond
    simp only [if_pos hin]
    generalize (boardStep factorial b' (.driver (.wake b'.regFact))).waitIrq factorial second = b''
      at hend' ⊢
    simp only [waitResult_serves hend']
    by_cases hin' : second.Serves (legacyJob (kicks + 1) .dma)
    · have hdone' : b''.sys.dev.irqDone = true := hend'.done.trans (decide_eq_true hin')
      have hpc'' : b''.sys.pc = .secondWaiting := by rw [hend'.pc, hsys']; rfl
      have hback : b''.sys.dev.slab.get 0 eduDmaTestLen = second.back := by
        refine get_back b'.sys.dev.slab fun a ha => ?_
        rw [hend'.payload a ha, hsys']
        rfl
      have hrecord : Record.of b''.sys.dev =
          { Record.of b.sys.dev with state.lastIrq := Work.dma.irqBit } := by
        simp [Record.of, hend'.irq hin', hend'.factIn, hend'.factOut, hend'.dmaOk, hend'.fault, hsys',
          dmaTestReadBack, hend.factIn, hend.factOut, hend.dmaOk, hend.fault, hsys, dmaTestStart,
          legacyJob]
      obtain ⟨hof, hret⟩ := finish_tests hrecord
      rw [hback] at hof hret
      simp only [if_pos hin', if_pos (And.intro hin hin'), wake_second hdone' hpc'']
      exact ⟨hret, fun _ => (hend'.calm hin').withSys (dmaTestFinish_inflight b''.sys.dev),
        fun _ => rfl, fun _ => hof⟩
    · simp only [if_neg hin', if_neg (not_and_of_not_right _ hin')]
      exact follows_late
  · simp only [if_neg hin, if_neg (not_and_of_not_left _ hin)]
    exact follows_late

/-- **Each call answers as the machine without waits does**, or it is late and times out. -/
theorem ioctl_follows (factorial : BitVec 32 → BitVec 32) (hcalm : b.Calm kicks)
    (hpc : b.sys.pc = .idle) (ht : t.Ambient) :
    Follows (kicks + t.call.kicks) (b.ioctl factorial t)
      ((Record.of b.sys.dev).answer factorial kicks t) := by
  obtain ⟨hcalm', helapsed⟩ := hcalm.events factorial 0 ht.before
  have hpc' := helapsed.pc.trans hpc
  have hrecord : Record.of (run (boardStep factorial) b t.before).sys.dev = .of b.sys.dev := by
    simp [Record.of, helapsed.same id, helapsed.factIn, helapsed.factOut, helapsed.dmaOk,
      helapsed.fault]
  unfold Board.ioctl Record.answer
  rw [← hrecord]
  cases t.call with
  | factorial n => exact factorial_follows hcalm' hpc' n ht.first
  | dmaTest => exact dmaTest_follows hcalm' hpc' ht.first ht.second
  | getState => exact ⟨rfl, fun _ => hcalm', fun _ => hpc', fun _ => rfl⟩

end

/-! ## Whole programs -/

section
variable {factorial : BitVec 32 → BitVec 32} {b : Board}

theorem ioctls_answers {kicks : Nat} (hcalm : b.Calm kicks) (hpc : b.sys.pc = .idle)
    {turns : List Turn} (hturns : ∀ t ∈ turns, t.Ambient) :
    b.ioctls factorial turns = (Record.of b.sys.dev).answers factorial kicks turns := by
  induction turns generalizing b kicks with
  | nil => rfl
  | cons t ts ih =>
    rw [List.forall_mem_cons] at hturns
    have hfollows := ioctl_follows factorial hcalm hpc hturns.1
    unfold Board.ioctls Record.answers
    generalize b.ioctl factorial t = out at hfollows
    generalize (Record.of b.sys.dev).answer factorial kicks t = answer at hfollows
    obtain ⟨b', ret⟩ := out
    obtain ⟨r, ret'⟩ := answer
    obtain rfl : ret = ret' := hfollows.ret
    by_cases hlate : ret = .error .etimedout
    · rw [hlate]
    · have hrest := ih (hfollows.calm hlate) (hfollows.pc hlate) hturns.2
      rw [hfollows.record hlate] at hrest
      simp only [hrest]

theorem construct_calm (hrests : b.DeviceRests) (ctx : Nat) :
    (Port.construct factorial b ctx).board.Calm b.kicks :=
  ⟨inUse_open b.sys.dev, hrests.unkicked, rfl, hrests.running, hrests.finished, hrests.irqStat,
    hrests.handler⟩

/-- **The legacy ioctls are those of a machine without waits**, up to the first call whose interrupt is
not handled in its wait. The program may come after any history that left the device at rest, and
share the machine with anything that does not call the driver. -/
theorem blocking_calls_refine (factorial : BitVec 32 → BitVec 32) (b : Board) (ctx : Nat)
    (turns : List Turn) (hrests : b.DeviceRests) (hpc : b.sys.pc = .idle)
    (hturns : ∀ t ∈ turns, t.Ambient) :
    (Port.construct factorial b ctx).board.ioctls factorial turns =
      (Record.of b.sys.dev).answers factorial b.kicks turns :=
  ioctls_answers (construct_calm hrests ctx) hpc hturns

end

/-- The device and the handler do their part after `reinit_completion`. -/
def servedLeg (j : Job) (sent : List BoardEvent) : Leg := ⟨[.driver .resetStats], sent ++ errand j⟩

/-- The handler is done before `reinit_completion`, which forgets it. -/
def forgottenLeg (j : Job) : Leg := ⟨errand j, []⟩

def emptyLeg : Leg := ⟨[], []⟩

theorem servedLeg_ambient (j : Job) {sent : List BoardEvent} (hsent : ∀ e ∈ sent, e.Ambient) :
    ∀ e ∈ (servedLeg j sent).early ++ (servedLeg j sent).late, e.Ambient := by
  simpa [servedLeg, errand, or_imp, forall_and, BoardEvent.Ambient, BoardEvent.Background] using hsent

theorem emptyLeg_ambient : ∀ e ∈ emptyLeg.early ++ emptyLeg.late, e.Ambient := nofun

/-- Two calls that work, the state after them, and a call whose interrupt comes too early. -/
theorem blocking_calls_refine_four :
    let first := servedLeg (legacyJob 0 (.factorial 5)) []
    let sent := servedLeg (legacyJob 1 .dma) []
    let back := servedLeg (legacyJob 2 .dma) [.driver (.dmaWrite pattern)]
    let forgotten := forgottenLeg (legacyJob 3 (.factorial 6))
    let turns : List Turn := [⟨.factorial 5, [], first, emptyLeg⟩,
      ⟨.dmaTest, [.driver (.dmaWrite [7])], sent, back⟩, ⟨.getState, [], emptyLeg, emptyLeg⟩,
      ⟨.factorial 6, [], forgotten, emptyLeg⟩, ⟨.getState, [], emptyLeg, emptyLeg⟩]
    (Port.construct factorial32 (.powered freshDev 0) 3).board.ioctls factorial32 turns =
      [.ok (.factorial ⟨5, 120, 0x001⟩), .ok .dmaTest, .ok (.state ⟨0x100, 5, 120, 1⟩),
        .error .etimedout] := by
  intro first sent back forgotten turns
  have hturns : ∀ t ∈ turns, t.Ambient := by
    intro t ht
    simp only [turns, List.mem_cons, List.not_mem_nil, or_false] at ht
    rcases ht with rfl | rfl | rfl | rfl | rfl
    · exact ⟨nofun, servedLeg_ambient _ nofun, emptyLeg_ambient⟩
    · exact ⟨by simp [BoardEvent.Ambient], servedLeg_ambient _ nofun,
        servedLeg_ambient _ (by simp [BoardEvent.Ambient])⟩
    · exact ⟨nofun, emptyLeg_ambient, emptyLeg_ambient⟩
    · exact ⟨nofun, by simp [forgotten, forgottenLeg, errand, BoardEvent.Ambient, BoardEvent.Background],
        emptyLeg_ambient⟩
    · exact ⟨nofun, emptyLeg_ambient, emptyLeg_ambient⟩
  exact (blocking_calls_refine factorial32 (.powered freshDev 0) 3 turns ⟨rfl, rfl, rfl, rfl, rfl⟩ rfl
    hturns).trans (by decide)

end PcieDriver.Edu
