import PcieDriver.Edu.Board

/-!
# Two DMA tests

The legacy ioctl sends a pattern to the device, has it sent back, and compares. A ring command sends
what is at the start of the slab, and is complete when it is there.
-/

open Base

namespace PcieDriver.Edu

/-! ## Both tests on one device -/

/-- When the interrupt of a transfer comes, as `edu_wait_irq` sees it. -/
inductive Arrival
  | beforeArm | waiting | afterTimeout | never
  deriving DecidableEq

/-- The device in both transfers. Given the bytes that it was sent, `back` are those that it writes
to the RAM. `fact` is what `REG_FACT` reads. -/
structure Transfers where
  first : Arrival
  second : Arrival
  back : List Byte → List Byte
  fact : BitVec 32

def irqIf (here : Bool) (e : EduDev) (fact : BitVec 32) : EduDev :=
  if here then (eduIrqHandler e Work.dma.irqBit fact).1 else e

def eduWaitIrq (e : EduDev) (a : Arrival) (fact : BitVec 32) : EduDev × Except Errno Unit :=
  let e := irqIf (a = .beforeArm) e fact
  let e := reinitCompletion e
  let e := irqIf (a = .waiting) e fact
  (e, waitResult e)

/-- `edu_run_dma_test` from its first wake-up. The device was sent `sent`. -/
def dmaTestReturn (e : EduDev) (sent : List Byte) (t : Transfers) : EduDev × Except Errno Unit :=
  let e := (dmaTestReadBack e).1
  let e := { e with slab := setPayload e.slab (t.back sent) }
  match eduWaitIrq e t.second t.fact with
  | (e, .error err) => (e, .error err)
  | (e, .ok ()) => dmaTestFinish e

def eduRunDmaTest (e : EduDev) (t : Transfers) : EduDev × Except Errno Unit :=
  let e := (dmaTestStart e).1
  let sent := e.slab.get 0 eduDmaTestLen
  match eduWaitIrq e t.first t.fact with
  | (e, .error err) => (e, .error err)
  | (e, .ok ()) => dmaTestReturn e sent t

/-- The completion of a ring command on the same device. The second transfer never starts. -/
def ringDmaTest (e : EduDev) (req : EduSubmitReq) (t : Transfers) : Option CqEntry :=
  if t.first = .never then none
  else (eduIrqHandler (eduRingSubmit e req).1 Work.dma.irqBit t.fact).2.posted.map Prod.snd

/-! ## The property and its condition -/

structure DmaTestsAgree (e : EduDev) (req : EduSubmitReq) (t : Transfers) : Prop where
  ok : ∀ entry, ringDmaTest e req t = some entry → entry.status = 0 →
    (eduRunDmaTest e t).2 = .ok ()
  eio : (eduRunDmaTest e t).2 = .error .eio →
    ∃ entry, ringDmaTest e req t = some entry ∧ entry.status ≠ 0
  poisoned : e.injectFault = 1 → (eduRunDmaTest e t).2 ≠ .ok () ∧
    ∀ entry, ringDmaTest e req t = some entry → entry.status ≠ 0

/-- Both transfers end in time, the pattern comes back, and no fault is armed. -/
structure RoundTrip (e : EduDev) (t : Transfers) : Prop where
  first : t.first = .waiting
  second : t.second = .waiting
  back : (t.back pattern).take eduDmaTestLen = pattern
  fault : e.injectFault ≠ 1

/-! ## The wait -/

section
variable {e : EduDev} {a : Arrival} {fact : BitVec 32}

theorem wait_ok (h : inUse e.inflight = ∅) :
    eduWaitIrq e .waiting fact =
      (acknowledged (reinitCompletion e) Work.dma.irqBit, .ok ()) := by
  have hnone : firstInflight (reinitCompletion e) = none := firstInflight_none.mpr h
  simp only [eduWaitIrq, irqIf, decide_true, reduceCtorEq, decide_false, if_true, if_false,
    Bool.false_eq_true, irq_idle (show Work.dma.irqBit ≠ 0 by decide) hnone, acknowledged,
    waitResult]

theorem wait_timeout (e : EduDev) (fact : BitVec 32) (h : a ≠ .waiting) :
    ∃ e', eduWaitIrq e a fact = (e', .error .etimedout) ∧ e'.irqDone = false := by
  cases a with
  | waiting => exact absurd rfl h
  | beforeArm | afterTimeout | never => exact ⟨_, rfl, rfl⟩

end

/-! ## What comes back -/

theorem get_setPayload (slab : Mem) {bs : List Byte}
    (hlen : (bs.take eduDmaTestLen).length = eduDmaTestLen) :
    (setPayload slab bs).get 0 eduDmaTestLen = bs.take eduDmaTestLen := by
  have h := Mem.get_put_same slab 0 (bs.take eduDmaTestLen)
  rwa [hlen] at h

theorem sent_pattern (e : EduDev) : (dmaTestStart e).1.slab.get 0 eduDmaTestLen = pattern :=
  get_setPayload e.slab pattern_length

/-- The pattern ends in a byte that is not 0, so a short answer does not make it. -/
theorem read_back_iff (slab : Mem) (bs : List Byte) :
    (setPayload (setPayload slab zeroPayload) bs).get 0 eduDmaTestLen = pattern ↔
      bs.take eduDmaTestLen = pattern := by
  constructor
  · intro h
    by_cases hlen : (bs.take eduDmaTestLen).length = eduDmaTestLen
    · rwa [get_setPayload _ hlen] at h
    · have hshort : (bs.take eduDmaTestLen).length ≤ 63 := by
        have := payload_length_le bs
        unfold eduDmaTestLen at *
        omega
      have hlast := congrArg (fun bytes => bytes.getD 63 0) h
      have hzero : setPayload (setPayload slab zeroPayload) bs 63 = 0 := by
        rw [setPayload, Mem.put_outside _ _ _ (.inr (by omega))]
        rfl
      simp [Mem.get, eduDmaTestLen, hzero] at hlast
      exact absurd hlast (by decide)
  · intro h
    rw [get_setPayload _ (by rw [h, pattern_length]), h]

/-! ## The outcome of each test -/

section
variable {e : EduDev} {t : Transfers}

theorem legacy_timeout (hidle : inUse e.inflight = ∅)
    (h : ¬ (t.first = .waiting ∧ t.second = .waiting)) :
    (eduRunDmaTest e t).2 = .error .etimedout := by
  by_cases hfirst : t.first = .waiting
  · have hidle' : inUse (dmaTestStart e).1.inflight = ∅ := hidle
    simp only [eduRunDmaTest, hfirst, wait_ok hidle', dmaTestReturn]
    obtain ⟨e', hwait, -⟩ := wait_timeout _ t.fact fun hsecond => h ⟨hfirst, hsecond⟩
    rw [hwait]
  · obtain ⟨e', hwait, -⟩ := wait_timeout (dmaTestStart e).1 t.fact hfirst
    simp only [eduRunDmaTest, hwait]

theorem legacy_compares (hidle : inUse e.inflight = ∅) (hfirst : t.first = .waiting)
    (hsecond : t.second = .waiting) :
    (eduRunDmaTest e t).2 =
      if (t.back pattern).take eduDmaTestLen ≠ pattern ∨ e.injectFault = 1 then .error .eio
      else .ok () := by
  have hidle' : inUse (dmaTestStart e).1.inflight = ∅ := hidle
  simp only [eduRunDmaTest, hfirst, wait_ok hidle', sent_pattern, dmaTestReturn, hsecond]
  rw [wait_ok (by exact hidle)]
  simp only [dmaTestFinish, acknowledged, reinitCompletion, dmaTestReadBack, read_back_iff, ne_eq]
  by_cases hback : (t.back pattern).take eduDmaTestLen = pattern
  · have hfault : (dmaTestStart e).1.injectFault = e.injectFault := rfl
    simp only [hback, hfault, not_true_eq_false, false_or, if_false]
    split_ifs <;> rfl
  · simp only [hback, not_false_eq_true, true_or, if_true]

theorem legacy_ok_iff (hidle : inUse e.inflight = ∅) :
    (eduRunDmaTest e t).2 = .ok () ↔ RoundTrip e t := by
  by_cases h : t.first = .waiting ∧ t.second = .waiting
  · rw [legacy_compares hidle h.1 h.2]
    constructor
    · intro hok
      split_ifs at hok with hbad
      rw [not_or, not_not] at hbad
      exact ⟨h.1, h.2, hbad.1, hbad.2⟩
    · intro htrip
      rw [if_neg (not_or.mpr ⟨not_not.mpr htrip.back, htrip.fault⟩)]
  · rw [legacy_timeout hidle h]
    constructor
    · intro hok
      cases hok
    · intro htrip
      exact absurd ⟨htrip.first, htrip.second⟩ h

theorem ring_completes {req : EduSubmitReq} (hop : req.opcode = eduOpDmaTest)
    (hroom : ringFull e.sqTail e.cqHead = false) (hidle : inUse e.inflight = ∅)
    (hends : t.first ≠ .never) : ringDmaTest e req t = some ⟨req.tag, 0, 0, 0, 0⟩ := by
  have hfirst : firstInflight (claimSlot e req) = some (slotOf e.sqTail) := by
    refine firstInflight_some.mpr ⟨?_, fun j hj => ?_⟩
    · simp only [claimSlot, Function.update_self, hop]
      decide
    · simp only [claimSlot, Function.update_of_ne hj.ne]
      exact (inUse_eq_empty _).mp hidle j
  have hentry : sqAt (claimSlot e req).slab (slotOf e.sqTail) =
      ⟨req.tag, req.opcode, 0, req.operand, 0⟩ := sqAt_setSq_same _ _ _
  have hcompletion : completionOf (claimSlot e req) (slotOf e.sqTail) t.fact =
      ⟨req.tag, 0, 0, 0, 0⟩ := by
    rw [completionOf, hentry, hop]
    rfl
  rw [ringDmaTest, if_neg hends, submit_claims hroom, irq_posts (by decide) hfirst, hcompletion]
  rfl

end

/-! ## The same tests as runs of the driver -/

/-- One transfer of the legacy test, from its kick to the end of the wait. -/
def legEvents (a : Arrival) (fact : BitVec 32) : List Event :=
  match a with
  | .beforeArm => [.irq Work.dma.irqBit fact, .arm]
  | .waiting => [.arm, .irq Work.dma.irqBit fact]
  | .afterTimeout | .never => [.arm]

def dmaTestEvents (t : Transfers) : List Event :=
  .dmaTest :: (legEvents t.first t.fact ++
    if t.first = .waiting then
      .wake t.fact :: .dmaWrite (t.back pattern) :: (legEvents t.second t.fact ++
        if t.second = .waiting then [.wake t.fact] else [.timeout])
    else [.timeout])

def ringTestEvents (client : Nat) (req : EduSubmitReq) (t : Transfers) : List Event :=
  .submit client req :: if t.first = .never then [] else [.irq Work.dma.irqBit t.fact]

def Sys.legacyAt (s : Sys) (e : EduDev) (pc : LegacyPc) : Sys := { s with dev := e, pc := pc }

section
variable {s : Sys} {e : EduDev} {pc : LegacyPc} {a : Arrival} {fact : BitVec 32} {t : Transfers}

theorem legacyAt_irq (h : inUse e.inflight = ∅) :
    step (s.legacyAt e pc) (.irq Work.dma.irqBit fact) =
      s.legacyAt (eduIrqHandler e Work.dma.irqBit fact).1 pc := by
  have hnone := firstInflight_none.mpr h
  rw [irq_idle (by decide) hnone]
  exact step_irq_idle (s := s.legacyAt e pc) (by decide) hnone

theorem legacyAt_leg (pc pc' : LegacyPc) (h : inUse e.inflight = ∅)
    (harm : ∀ e, step (s.legacyAt e pc) .arm = s.legacyAt (reinitCompletion e) pc') :
    run step (s.legacyAt e pc) (legEvents a fact) = s.legacyAt (eduWaitIrq e a fact).1 pc' := by
  cases a with
  | beforeArm => rw [legEvents, run_cons, run_cons, run_nil, legacyAt_irq h, harm]; rfl
  | waiting => rw [legEvents, run_cons, run_cons, run_nil, harm, legacyAt_irq (by exact h)]; rfl
  | afterTimeout | never => exact harm e

theorem legacyAt_timeout (hwaiting : pc = .firstWaiting ∨ pc = .secondWaiting)
    (h : e.irqDone = false) : step (s.legacyAt e pc) .timeout = s.legacyAt e .idle := by
  rcases hwaiting with rfl | rfl <;> simp [step, Sys.timeoutStep, Sys.legacyAt, h]

theorem legacyAt_wake_first (h : e.irqDone = true) :
    step (s.legacyAt e .firstWaiting) (.wake fact) =
      s.legacyAt (dmaTestReadBack e).1 .secondKicked := if_pos h

theorem legacyAt_wake_second (h : e.irqDone = true) :
    step (s.legacyAt e .secondWaiting) (.wake fact) = s.legacyAt (dmaTestFinish e).1 .idle := if_pos h

/-- From the first wake-up on. The device has written what it sends back. -/
theorem run_return (h : inUse e.inflight = ∅) (hdone : e.irqDone = true) (sent : List Byte) :
    run step (s.legacyAt e .firstWaiting)
        (.wake t.fact :: .dmaWrite (t.back sent) :: (legEvents t.second t.fact ++
          if t.second = .waiting then [.wake t.fact] else [.timeout])) =
      s.legacyAt (dmaTestReturn e sent t).1 .idle := by
  have hwrite : step (s.legacyAt (dmaTestReadBack e).1 .secondKicked) (.dmaWrite (t.back sent)) =
      s.legacyAt { (dmaTestReadBack e).1 with
        slab := setPayload (dmaTestReadBack e).1.slab (t.back sent) } .secondKicked := rfl
  rw [run_cons, legacyAt_wake_first hdone, run_cons, hwrite, run_append,
    legacyAt_leg .secondKicked .secondWaiting (by exact h) fun _ => rfl, dmaTestReturn]
  by_cases hsecond : t.second = .waiting
  · rw [if_pos hsecond, hsecond, wait_ok (by exact h), run_cons, run_nil, legacyAt_wake_second rfl]
  · obtain ⟨e', hwait, hdone'⟩ := wait_timeout { (dmaTestReadBack e).1 with
      slab := setPayload (dmaTestReadBack e).1.slab (t.back sent) } t.fact hsecond
    rw [if_neg hsecond, hwait, run_cons, run_nil, legacyAt_timeout (.inr rfl) hdone']

theorem run_dma_test (hpc : s.pc = .idle) (h : inUse s.dev.inflight = ∅) :
    run step s (dmaTestEvents t) = s.legacyAt (eduRunDmaTest s.dev t).1 .idle := by
  have hstart : step s .dmaTest = s.legacyAt (dmaTestStart s.dev).1 .firstKicked := if_pos hpc
  have hidle : inUse (dmaTestStart s.dev).1.inflight = ∅ := h
  rw [dmaTestEvents, run_cons, hstart, run_append,
    legacyAt_leg .firstKicked .firstWaiting hidle fun _ => rfl]
  by_cases hfirst : t.first = .waiting
  · rw [if_pos hfirst, eduRunDmaTest, hfirst, wait_ok hidle, sent_pattern]
    exact run_return (by exact h) rfl pattern
  · obtain ⟨e', hwait, hdone⟩ := wait_timeout (dmaTestStart s.dev).1 t.fact hfirst
    rw [if_neg hfirst, eduRunDmaTest, hwait, run_cons, run_nil, legacyAt_timeout (.inl rfl) hdone]

theorem run_ring_test (client : Nat) {req : EduSubmitReq} :
    (run step s (ringTestEvents client req t)).posted.map Post.entry =
      s.posted.map Post.entry ++ (ringDmaTest s.dev req t).toList := by
  have hsubmit : (step s (.submit client req)).posted = s.posted := posted_of_silent trivial
  have hdev : (step s (.submit client req)).dev = (eduRingSubmit s.dev req).1 := by
    simp only [step, Sys.submitStep]
    split_ifs <;> rfl
  rw [ringTestEvents, run_cons, ringDmaTest, ← hdev, ← hsubmit]
  split_ifs with hnever
  · simp
  · cases hfirst : firstInflight (step s (.submit client req)).dev with
    | none =>
      rw [run_cons, run_nil, step_irq_idle (by decide) hfirst, irq_idle (by decide) hfirst]
      simp
    | some i =>
      rw [run_cons, run_nil, step_irq_posts (by decide) hfirst, irq_posts (by decide) hfirst]
      simp [Sys.post]

end

/-- **The tests agree** exactly if the first transfer never ends or the whole round trip is right. -/
theorem dma_tests_agree_iff (e : EduDev) (req : EduSubmitReq) (t : Transfers)
    (hop : req.opcode = eduOpDmaTest) (hroom : ringFull e.sqTail e.cqHead = false)
    (hidle : inUse e.inflight = ∅) :
    DmaTestsAgree e req t ↔ t.first = .never ∨ RoundTrip e t := by
  constructor
  · intro h
    by_cases hends : t.first = .never
    · exact .inl hends
    · have hring := ring_completes hop hroom hidle hends
      exact .inr ((legacy_ok_iff hidle).mp (h.ok _ hring rfl))
  · rintro (hnever | htrip)
    · have hring : ringDmaTest e req t = none := if_pos hnever
      have hlegacy : (eduRunDmaTest e t).2 = .error .etimedout :=
        legacy_timeout hidle fun h => by simp [hnever] at h
      exact ⟨by simp [hring], by simp [hlegacy], by simp [hring, hlegacy]⟩
    · have hlegacy := (legacy_ok_iff hidle).mpr htrip
      exact ⟨fun _ _ _ => hlegacy, by simp [hlegacy], fun harmed => absurd harmed htrip.fault⟩

/-- A device that sends back what it was sent, in time. -/
theorem dma_tests_agree_faithful :
    let t : Transfers := ⟨.waiting, .waiting, id, 0⟩
    let req : EduSubmitReq := ⟨7, eduOpDmaTest, 0⟩
    DmaTestsAgree freshDev req t ∧ ringDmaTest freshDev req t = some ⟨7, 0, 0, 0, 0⟩ ∧
      (eduRunDmaTest freshDev t).2 = .ok () := by
  intro t req
  have htrip : RoundTrip freshDev t := ⟨rfl, rfl, by decide, by decide⟩
  have hagree : DmaTestsAgree freshDev req t :=
    (dma_tests_agree_iff freshDev req t rfl rfl (by decide)).mpr (.inr htrip)
  have hring : ringDmaTest freshDev req t = some ⟨7, 0, 0, 0, 0⟩ := by decide
  exact ⟨hagree, hring, hagree.ok _ hring rfl⟩

/-- A device that sends back zeros fails the legacy test, and so does an armed fault. The ring
command reports success for both. -/
theorem ring_dma_test_misses_errors :
    let zeros : Transfers := ⟨.waiting, .waiting, fun _ => zeroPayload, 0⟩
    let faithful : Transfers := ⟨.waiting, .waiting, id, 0⟩
    let armed : EduDev := { freshDev with injectFault := 1 }
    let req : EduSubmitReq := ⟨7, eduOpDmaTest, 0⟩
    ¬ DmaTestsAgree freshDev req zeros ∧
      (eduRunDmaTest freshDev zeros).2 = .error .eio ∧
      ringDmaTest freshDev req zeros = some ⟨7, 0, 0, 0, 0⟩ ∧
      ¬ DmaTestsAgree armed req faithful ∧
      (eduRunDmaTest armed faithful).2 = .error .eio ∧
      ringDmaTest armed req faithful = some ⟨7, 0, 0, 0, 0⟩ := by
  intro zeros faithful armed req
  have hzeros : ringDmaTest freshDev req zeros = some ⟨7, 0, 0, 0, 0⟩ := by decide
  have harmed : ringDmaTest armed req faithful = some ⟨7, 0, 0, 0, 0⟩ := by decide
  refine ⟨fun h => ?_, by decide, hzeros, fun h => ?_, by decide, harmed⟩
  · exact absurd (h.ok _ hzeros rfl) (by decide)
  · exact (h.poisoned rfl).2 _ harmed rfl

end PcieDriver.Edu
