import PcieDriver.Base.Machine
import PcieDriver.Edu.Ring

/-!
# The driver and its history

One step is one critical section of the driver, or one piece of a legacy ioctl between two of its
waits. The register writes of a submit come after its critical section and change nothing here.
The history says which command each slot and each completion entry belongs to.
-/

open Base

namespace PcieDriver.Edu

/-- A command that got a slot. `id` counts the calls of `edu_ring_submit`. -/
structure Cmd where
  id : Nat
  client : Nat
  req : EduSubmitReq
  deriving DecidableEq

/-- An entry that the handler wrote: for which command, and what `REG_FACT` read then. -/
structure Post where
  num : Nat
  entry : CqEntry
  fact : BitVec 32
  deriving DecidableEq

/-- Where the holder of `e->lock` is. -/
inductive LegacyPc
  | idle
  | factorialKicked | factorialWaiting
  | firstKicked | firstWaiting
  | secondKicked | secondWaiting
  deriving DecidableEq

/-- The history since the last open, but for `calls`. Command `n` is the `n`-th of `claimed`,
`owner` names the last command that claimed each slot, and the first `consumed` posts are read. -/
structure Sys where
  dev : EduDev
  pc : LegacyPc
  calls : Nat
  claimed : List Cmd
  owner : Fin ringSize → Nat
  posted : List Post
  consumed : Nat

inductive Event
  | open (client : Nat)
  | submit (client : Nat) (req : EduSubmitReq)
  | irq (stat fact : BitVec 32)
  | pollCq (client : Nat)
  | factorial (input : BitVec 32)
  | dmaTest
  | arm
  | wake (fact : BitVec 32)
  | timeout
  | dmaWrite (bs : List Byte)
  | setEventfd (ctx : Nat)
  | resetStats
  deriving DecidableEq

namespace Sys

def unread (s : Sys) : List Post := s.posted.drop s.consumed

def delivered (s : Sys) : List Post := s.posted.take s.consumed

def reset (s : Sys) : Sys :=
  { s with dev := eduOpen s.dev, claimed := [], posted := [], consumed := 0 }

def claim (s : Sys) (client : Nat) (req : EduSubmitReq) : Sys :=
  { s with
    dev := claimSlot s.dev req
    calls := s.calls + 1
    claimed := s.claimed ++ [⟨s.calls, client, req⟩]
    owner := Function.update s.owner (slotOf s.dev.sqTail) s.claimed.length }

def post (s : Sys) (i : Fin ringSize) (stat fact : BitVec 32) : Sys :=
  { s with
    dev := postCompletion (acknowledged s.dev stat) i fact
    posted := s.posted ++ [⟨s.owner i, completionOf s.dev i fact, fact⟩] }

def take (s : Sys) : Sys := { s with dev := taken s.dev, consumed := s.consumed + 1 }

def submitStep (s : Sys) (client : Nat) (req : EduSubmitReq) : Sys :=
  if ringFull s.dev.sqTail s.dev.cqHead then
    { s with dev := (eduRingSubmit s.dev req).1, calls := s.calls + 1 }
  else
    { s with
      dev := (eduRingSubmit s.dev req).1
      calls := s.calls + 1
      claimed := s.claimed ++ [⟨s.calls, client, req⟩]
      owner := Function.update s.owner (slotOf s.dev.sqTail) s.claimed.length }

def irqStep (s : Sys) (stat fact : BitVec 32) : Sys :=
  let (dev, report) := eduIrqHandler s.dev stat fact
  match report.posted with
  | none => { s with dev := dev }
  | some (i, entry) => { s with dev := dev, posted := s.posted ++ [⟨s.owner i, entry, fact⟩] }

def pollStep (s : Sys) : Sys :=
  match eduPollCq s.dev with
  | (dev, .error _) => { s with dev := dev }
  | (dev, .ok _) => { s with dev := dev, consumed := s.consumed + 1 }

/-- `reinit_completion`, after the kick of each leg. -/
def armStep (s : Sys) : Sys :=
  match s.pc with
  | .factorialKicked => { s with dev := reinitCompletion s.dev, pc := .factorialWaiting }
  | .firstKicked => { s with dev := reinitCompletion s.dev, pc := .firstWaiting }
  | .secondKicked => { s with dev := reinitCompletion s.dev, pc := .secondWaiting }
  | _ => s

/-- The wait ends because `irq_done` is complete, and the ioctl goes on to its next wait. -/
def wakeStep (s : Sys) (fact : BitVec 32) : Sys :=
  if s.dev.irqDone then
    match s.pc with
    | .factorialWaiting => { s with dev := factorialFinish s.dev fact, pc := .idle }
    | .firstWaiting => { s with dev := (dmaTestReadBack s.dev).1, pc := .secondKicked }
    | .secondWaiting => { s with dev := (dmaTestFinish s.dev).1, pc := .idle }
    | _ => s
  else s

/-- The wait ends because its time is over, and the ioctl returns `-ETIMEDOUT`. -/
def timeoutStep (s : Sys) : Sys :=
  if s.dev.irqDone then s
  else
    match s.pc with
    | .factorialWaiting | .firstWaiting | .secondWaiting => { s with pc := .idle }
    | _ => s

end Sys

/-- A second legacy ioctl waits for `e->lock`, so it starts only when no other is under way. -/
def step (s : Sys) : Event → Sys
  | .open _ => s.reset
  | .submit client req => s.submitStep client req
  | .irq stat fact => s.irqStep stat fact
  | .pollCq _ => s.pollStep
  | .factorial input =>
    if s.pc = .idle then { s with dev := (factorialStart s.dev input).1, pc := .factorialKicked }
    else s
  | .dmaTest =>
    if s.pc = .idle then { s with dev := (dmaTestStart s.dev).1, pc := .firstKicked } else s
  | .arm => s.armStep
  | .wake fact => s.wakeStep fact
  | .timeout => s.timeoutStep
  -- The device writes into the range that the second leg gave it, at a time of its own.
  | .dmaWrite bs => { s with dev := { s.dev with slab := setPayload s.dev.slab bs } }
  | .setEventfd ctx => { s with dev := eduIocSetEventfd s.dev ctx }
  | .resetStats => { s with dev := eduDbgfsStatsWrite s.dev }

/-- The first open of a device that is in any state. -/
def start (d : EduDev) : Sys where
  dev := eduOpen d
  pc := .idle
  calls := 0
  claimed := []
  owner := fun _ => 0
  posted := []
  consumed := 0

def freshDev : EduDev := eduProbe (fun _ => 0) 0

/-! ## What a step can do -/

/-- The rings, the indices and the history are as they were. The slab is not mentioned. -/
structure SameRing (s s' : Sys) : Prop where
  sqTail : s'.dev.sqTail = s.dev.sqTail := by rfl
  cqTail : s'.dev.cqTail = s.dev.cqTail := by rfl
  cqHead : s'.dev.cqHead = s.dev.cqHead := by rfl
  inflight : s'.dev.inflight = s.dev.inflight := by rfl
  claimed : s'.claimed = s.claimed := by rfl
  owner : s'.owner = s.owner := by rfl
  posted : s'.posted = s.posted := by rfl
  consumed : s'.consumed = s.consumed := by rfl
  calls : s.calls ≤ s'.calls := by exact le_refl _

structure SameStats (s s' : Sys) : Prop where
  submitted : s'.dev.statSqSubmitted = s.dev.statSqSubmitted := by rfl
  posted : s'.dev.statCqPosted = s.dev.statCqPosted := by rfl
  consumed : s'.dev.statCqConsumed = s.dev.statCqConsumed := by rfl

/-- The bytes that an event writes at the start of the slab, if it writes there. -/
def payloadOf (s : Sys) : Event → Option (List Byte)
  | .dmaTest => if s.pc = .idle then some pattern else none
  | .wake _ => if s.dev.irqDone ∧ s.pc = .firstWaiting then some zeroPayload else none
  | .dmaWrite bs => some bs
  | _ => none

/-- The event changes nothing in the rings, nor in the slab. -/
def Idle (s : Sys) : Event → Prop
  | .open _ | .resetStats => False
  | .submit _ _ => ringFull s.dev.sqTail s.dev.cqHead = true
  | .irq stat _ => stat = 0 ∨ firstInflight s.dev = none
  | .pollCq _ => s.dev.cqHead = s.dev.cqTail
  | e => payloadOf s e = none

/-- Everything that a step can do to the rings. -/
inductive Effect (s : Sys) : Event → Sys → Prop
  | reset (client) : Effect s (.open client) s.reset
  | claim (client req) (hroom : ringFull s.dev.sqTail s.dev.cqHead = false) :
      Effect s (.submit client req) (s.claim client req)
  | post (stat fact i) (hstat : stat ≠ 0) (hfirst : firstInflight s.dev = some i) :
      Effect s (.irq stat fact) (s.post i stat fact)
  | take (client) (hne : s.dev.cqHead ≠ s.dev.cqTail) : Effect s (.pollCq client) s.take
  | payload (e bs s') (hbs : payloadOf s e = some bs) (hsame : SameRing s s')
      (hstats : SameStats s s') (hslab : s'.dev.slab = setPayload s.dev.slab bs) : Effect s e s'
  | resetStats : Effect s .resetStats { s with dev := eduDbgfsStatsWrite s.dev }
  | quiet (e s') (hidle : Idle s e) (hsame : SameRing s s') (hstats : SameStats s s')
      (hslab : s'.dev.slab = s.dev.slab) : Effect s e s'

/-! ### One lemma for each branch -/

section
variable {s : Sys} {client : Nat} {req : EduSubmitReq} {stat fact : BitVec 32} {i : Fin ringSize}

theorem step_submit_full (h : ringFull s.dev.sqTail s.dev.cqHead = true) :
    step s (.submit client req) = { s with calls := s.calls + 1 } := by
  simp [step, Sys.submitStep, h, submit_full h]

theorem step_submit_claims (h : ringFull s.dev.sqTail s.dev.cqHead = false) :
    step s (.submit client req) = s.claim client req := by
  simp [step, Sys.submitStep, h, submit_claims h, Sys.claim]

theorem step_irq_ignored : step s (.irq 0 fact) = s := by
  rw [step, Sys.irqStep, irq_ignored]

theorem step_irq_idle (hstat : stat ≠ 0) (h : firstInflight s.dev = none) :
    step s (.irq stat fact) = { s with dev := acknowledged s.dev stat } := by
  simp [step, Sys.irqStep, irq_idle hstat h]

theorem step_irq_posts (hstat : stat ≠ 0) (h : firstInflight s.dev = some i) :
    step s (.irq stat fact) = s.post i stat fact := by
  simp [step, Sys.irqStep, irq_posts hstat h, Sys.post]

theorem step_poll_empty (h : s.dev.cqHead = s.dev.cqTail) : step s (.pollCq client) = s := by
  simp [step, Sys.pollStep, poll_empty h]

theorem step_poll_takes (h : s.dev.cqHead ≠ s.dev.cqTail) : step s (.pollCq client) = s.take := by
  simp [step, Sys.pollStep, poll_takes h, Sys.take]

end

theorem dmaTestFinish_eq (e : EduDev) : ∃ errors fault ok,
    (dmaTestFinish e).1 = { e with statDmaErrors := errors, injectFault := fault, dmaOk := ok } := by
  unfold dmaTestFinish
  split_ifs
  · exact ⟨_, e.injectFault, e.dmaOk, rfl⟩
  · exact ⟨_, 0, e.dmaOk, rfl⟩
  · exact ⟨e.statDmaErrors, e.injectFault, 1, rfl⟩

theorem arm_effect (s : Sys) : Effect s .arm s.armStep := by
  unfold Sys.armStep
  split <;> exact .quiet _ _ rfl {} {} rfl

theorem timeout_effect (s : Sys) : Effect s .timeout s.timeoutStep := by
  unfold Sys.timeoutStep
  split
  · exact .quiet _ _ rfl {} {} rfl
  · split <;> exact .quiet _ _ rfl {} {} rfl

theorem wake_effect (s : Sys) (fact : BitVec 32) : Effect s (.wake fact) (s.wakeStep fact) := by
  unfold Sys.wakeStep
  split
  · rename_i hdone
    split
    · rename_i hpc
      exact .quiet _ _ (by simp [Idle, payloadOf, hpc]) {} {} rfl
    · rename_i hpc
      exact .payload _ zeroPayload _ (by simp [payloadOf, hpc, hdone]) {} {} rfl
    · rename_i hpc
      obtain ⟨_, _, _, h⟩ := dmaTestFinish_eq s.dev
      rw [h]
      exact .quiet _ _ (by simp [Idle, payloadOf, hpc]) {} {} rfl
    · rename_i _ hpc _
      exact .quiet _ _ (by simpa [Idle, payloadOf] using fun _ => hpc) {} {} rfl
  · rename_i hdone
    exact .quiet _ _ (by simp [Idle, payloadOf, hdone]) {} {} rfl

/-- **The cases of a step.** -/
theorem step_effect (s : Sys) (e : Event) : Effect s e (step s e) := by
  cases e with
  | «open» client => exact .reset client
  | submit client req =>
    cases hfull : ringFull s.dev.sqTail s.dev.cqHead with
    | true =>
      rw [step_submit_full hfull]
      exact .quiet _ _ hfull { calls := Nat.le_succ _ } {} rfl
    | false =>
      rw [step_submit_claims hfull]
      exact .claim client req hfull
  | irq stat fact =>
    by_cases hstat : stat = 0
    · subst hstat
      rw [step_irq_ignored]
      exact .quiet _ _ (.inl rfl) {} {} rfl
    · cases hfirst : firstInflight s.dev with
      | none =>
        rw [step_irq_idle hstat hfirst]
        exact .quiet _ _ (.inr hfirst) {} {} rfl
      | some i =>
        rw [step_irq_posts hstat hfirst]
        exact .post stat fact i hstat hfirst
  | pollCq client =>
    by_cases hempty : s.dev.cqHead = s.dev.cqTail
    · rw [step_poll_empty hempty]
      exact .quiet _ _ hempty {} {} rfl
    · rw [step_poll_takes hempty]
      exact .take client hempty
  | factorial input =>
    by_cases hpc : s.pc = .idle
    · simp only [step, if_pos hpc]
      exact .quiet _ _ rfl {} {} rfl
    · simp only [step, if_neg hpc]
      exact .quiet _ _ rfl {} {} rfl
  | dmaTest =>
    by_cases hpc : s.pc = .idle
    · simp only [step, if_pos hpc]
      exact .payload _ pattern _ (by simp [payloadOf, hpc]) {} {} rfl
    · simp only [step, if_neg hpc]
      exact .quiet _ _ (by simp [Idle, payloadOf, hpc]) {} {} rfl
  | arm => exact arm_effect s
  | wake fact => exact wake_effect s fact
  | timeout => exact timeout_effect s
  | dmaWrite bs => exact .payload _ bs _ rfl {} {} rfl
  | setEventfd ctx => exact .quiet _ _ rfl {} {} rfl
  | resetStats => exact .resetStats

theorem not_idle_of_payload {s : Sys} {e : Event} {bs : List Byte} (h : payloadOf s e = some bs) :
    ¬ Idle s e := by
  cases e <;> simp_all [Idle, payloadOf]

theorem step_payload {s : Sys} {e : Event} {bs : List Byte} (h : payloadOf s e = some bs) :
    SameRing s (step s e) ∧ (step s e).dev.slab = setPayload s.dev.slab bs := by
  generalize hs' : step s e = s'
  have heff : Effect s e s' := hs' ▸ step_effect s e
  cases heff with
  | reset | claim | post | take | resetStats => simp [payloadOf] at h
  | payload _ bs' _ hbs hsame _ hslab =>
    obtain rfl : bs' = bs := by simpa [hbs] using h
    exact ⟨hsame, hslab⟩
  | quiet _ _ hidle _ _ _ => exact absurd hidle (not_idle_of_payload h)

end PcieDriver.Edu
