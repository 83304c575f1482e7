import PcieDriver.Edu.Commands

/-!
# The userspace handle

`class EduDevice` of `userspace/edu_device.cpp` over the driver. A zero-copy submit first writes
the entry through the mapping, then calls the driver like a plain one. The machine stops a submit
before and after the critical section of the driver, so that interrupts can come between.
-/

open Base

namespace PcieDriver.Edu

/-! ## The class -/

structure EduDevice where
  ringsMapped : Bool
  sqTail : BitVec 32
  deriving DecidableEq

def strerror : Errno → String
  | .enospc => "No space left on device"
  | .einval => "Invalid argument"
  | .eagain => "Resource temporarily unavailable"
  | .efault => "Bad address"
  | .etimedout => "Connection timed out"
  | .eio => "Input/output error"

def throwErrno (what : String) (err : Errno) : String := what ++ ": " ++ strerror err

namespace EduDevice

/-- What `ioctl_submit` makes of the return code. An error is the text that it throws. -/
def submitResult : Except Errno Unit → Except String Unit
  | .ok () => .ok ()
  | .error .enospc => .error "ring full"
  | .error .einval => .error "bad opcode"
  | .error err => .error (throwErrno "EDU_IOC_SUBMIT" err)

/-- `++sq_tail_`, if the ioctl worked. -/
def advance (h : EduDevice) : Except Errno Unit → EduDevice
  | .ok () => { h with sqTail := h.sqTail + 1 }
  | .error _ => h

/-- The request is a local of the call, so the driver can copy it. -/
def ioctlSubmit (h : EduDevice) (e : EduDev) (req : EduSubmitReq) :
    EduDevice × EduDev × List MmioWrite × Except String Unit :=
  let (e, writes, ret) := eduIocSubmit e true req
  (h.advance ret, e, writes, submitResult ret)

def submit (h : EduDevice) (e : EduDev) (req : EduSubmitReq) :
    EduDevice × EduDev × List MmioWrite × Except String Unit := h.ioctlSubmit e req

/-- The stores of `submit_zc` through the mapping. -/
def writeEntry (h : EduDevice) (e : EduDev) (req : EduSubmitReq) : EduDev :=
  { e with slab := setSq e.slab (slotOf h.sqTail) ⟨req.tag, req.opcode, 0, req.operand, 0⟩ }

def needsRings : String := "map_rings() required for zero-copy submit"

def submitZc (h : EduDevice) (e : EduDev) (req : EduSubmitReq) :
    EduDevice × EduDev × List MmioWrite × Except String Unit :=
  if h.ringsMapped then h.ioctlSubmit (h.writeEntry e req) req
  else (h, e, [], .error needsRings)

def pollCompletion (e : EduDev) : EduDev × Except String (Option EduCompletionReq) :=
  match eduIocPollCq e true with
  | (e, .ok c) => (e, .ok (some c))
  | (e, .error .eagain) => (e, .ok none)
  | (e, .error err) => (e, .error (throwErrno "EDU_IOC_POLL_CQ" err))

end EduDevice

/-! ## The machine -/

inductive CallPc
  | idle
  | entering (req : EduSubmitReq)
  | leaving (ret : Except Errno Unit)
  deriving DecidableEq

/-- `accepted` and `refused` are what the driver answered: the requests with return code 0, and
the number of those with `-EINVAL`. `outcome` is the end of the last submit. -/
structure Proc where
  sys : Sys
  handle : EduDevice
  pc : CallPc
  accepted : List EduSubmitReq
  refused : Nat
  outcome : Except String Unit
  returned : List EduCompletionReq

inductive ProcEvent
  | call (zc : Bool) (req : EduSubmitReq)
  | enter
  | leave
  | poll
  | mapRings
  | unmapRings
  | kernel (e : Event)
  deriving DecidableEq

/-- Neither an open nor a use of the ring, which are the handle's own. -/
def Event.Outside : Event → Prop
  | .open _ | .submit _ _ | .pollCq _ => False
  | _ => True

instance : ∀ e : Event, Decidable e.Outside
  | .open _ | .submit _ _ | .pollCq _ => .isFalse id
  | .irq _ _ | .factorial _ | .dmaTest | .arm | .wake _ | .timeout | .dmaWrite _
  | .setEventfd _ | .resetStats => .isTrue trivial

namespace Proc

/-- The constructor of `EduDevice`, on a device in any state. -/
def opened (d : EduDev) : Proc where
  sys := start d
  handle := ⟨false, 0⟩
  pc := .idle
  accepted := []
  refused := 0
  outcome := .ok ()
  returned := []

def write (u : Proc) (req : EduSubmitReq) : Proc :=
  { u with sys := { u.sys with dev := u.handle.writeEntry u.sys.dev req } }

def callStep (u : Proc) (zc : Bool) (req : EduSubmitReq) : Proc :=
  if u.pc = .idle then
    if zc then
      if u.handle.ringsMapped then { u.write req with pc := .entering req }
      else { u with outcome := .error EduDevice.needsRings }
    else { u with pc := .entering req }
  else u

def enterStep (u : Proc) : Proc :=
  match u.pc with
  | .entering req =>
    let ret := (eduIocSubmit u.sys.dev true req).2.2
    { u with
      sys := step u.sys (.submit 0 req)
      pc := .leaving ret
      accepted := if ret = .ok () then u.accepted ++ [req] else u.accepted
      refused := if ret = .error .einval then u.refused + 1 else u.refused }
  | _ => u

def leaveStep (u : Proc) : Proc :=
  match u.pc with
  | .leaving ret =>
    { u with
      handle := u.handle.advance ret
      pc := .idle
      outcome := EduDevice.submitResult ret }
  | _ => u

def pollStep (u : Proc) : Proc :=
  match (EduDevice.pollCompletion u.sys.dev).2 with
  | .ok (some c) => { u with sys := step u.sys (.pollCq 0), returned := u.returned ++ [c] }
  | _ => { u with sys := step u.sys (.pollCq 0) }

end Proc

/-- A submit has two halves and other steps come between. The rest of the class is one step. -/
def procStep (u : Proc) : ProcEvent → Proc
  | .call zc req => u.callStep zc req
  | .enter => u.enterStep
  | .leave => u.leaveStep
  | .poll => u.pollStep
  | .mapRings => if u.pc = .idle then { u with handle.ringsMapped := true } else u
  | .unmapRings => if u.pc = .idle then { u with handle.ringsMapped := false } else u
  | .kernel e => if e.Outside then { u with sys := step u.sys e } else u

/-! ## A submit that nothing interrupts -/

section
variable {u : Proc} {req : EduSubmitReq}

theorem step_submit_dev (s : Sys) (client : Nat) (req : EduSubmitReq) :
    (step s (.submit client req)).dev = (eduIocSubmit s.dev true req).1 := by
  simp only [step, Sys.submitStep, eduIocSubmit, if_true]
  split <;> rfl

theorem run_submit (hpc : u.pc = .idle) :
    let u' := run procStep u [.call false req, .enter, .leave]
    let (h, e, _, outcome) := u.handle.submit u.sys.dev req
    u'.handle = h ∧ u'.sys.dev = e ∧ u'.outcome = outcome := by
  simp [procStep, Proc.callStep, Proc.enterStep, Proc.leaveStep, hpc, step_submit_dev,
    EduDevice.submit, EduDevice.ioctlSubmit]

theorem run_submitZc (hpc : u.pc = .idle) :
    let u' := run procStep u [.call true req, .enter, .leave]
    let (h, e, _, outcome) := u.handle.submitZc u.sys.dev req
    u'.handle = h ∧ u'.sys.dev = e ∧ u'.outcome = outcome := by
  by_cases hmap : u.handle.ringsMapped = true
  · simp [procStep, Proc.callStep, Proc.enterStep, Proc.leaveStep, Proc.write, hpc, hmap,
      step_submit_dev, EduDevice.submitZc, EduDevice.ioctlSubmit]
  · simp [procStep, Proc.callStep, Proc.enterStep, Proc.leaveStep, hpc, hmap, EduDevice.submitZc]

end

/-! ## The branches of the ioctl -/

section
variable {u : Proc} {req : EduSubmitReq}

theorem enter_full (hpc : u.pc = .entering req)
    (hfull : ringFull u.sys.dev.sqTail u.sys.dev.cqHead = true) :
    u.enterStep =
      { u with sys := { u.sys with calls := u.sys.calls + 1 }, pc := .leaving (.error .enospc) } := by
  simp [Proc.enterStep, hpc, eduIocSubmit, submit_full hfull, step_submit_full hfull]

theorem enter_accepts (hpc : u.pc = .entering req)
    (hroom : ringFull u.sys.dev.sqTail u.sys.dev.cqHead = false) (hop : ValidOpcode req) :
    u.enterStep =
      { u with
        sys := u.sys.claim 0 req
        pc := .leaving (.ok ())
        accepted := u.accepted ++ [req] } := by
  simp [Proc.enterStep, hpc, eduIocSubmit, submit_accepts hroom hop, step_submit_claims hroom]

theorem enter_refuses (hpc : u.pc = .entering req)
    (hroom : ringFull u.sys.dev.sqTail u.sys.dev.cqHead = false) (hop : ¬ ValidOpcode req) :
    u.enterStep =
      { u with
        sys := u.sys.claim 0 req
        pc := .leaving (.error .einval)
        refused := u.refused + 1 } := by
  simp [Proc.enterStep, hpc, eduIocSubmit, submit_refuses_opcode hroom hop,
    step_submit_claims hroom]

theorem enter_other (hpc : ∀ req, u.pc ≠ .entering req) : u.enterStep = u := by
  unfold Proc.enterStep
  split
  · rename_i req h
    exact absurd h (hpc req)
  · rfl

end

theorem enter_cases (u : Proc) :
    u.enterStep = u ∨ ∃ req, u.pc = .entering req ∧
      ((ringFull u.sys.dev.sqTail u.sys.dev.cqHead = true ∧ u.enterStep =
          { u with
            sys := { u.sys with calls := u.sys.calls + 1 }
            pc := .leaving (.error .enospc) }) ∨
        (ringFull u.sys.dev.sqTail u.sys.dev.cqHead = false ∧ ValidOpcode req ∧ u.enterStep =
          { u with
            sys := u.sys.claim 0 req
            pc := .leaving (.ok ())
            accepted := u.accepted ++ [req] }) ∨
        (ringFull u.sys.dev.sqTail u.sys.dev.cqHead = false ∧ ¬ ValidOpcode req ∧ u.enterStep =
          { u with
            sys := u.sys.claim 0 req
            pc := .leaving (.error .einval)
            refused := u.refused + 1 })) := by
  cases hpc : u.pc with
  | idle | leaving => exact .inl (enter_other (by simp [hpc]))
  | entering req =>
    refine .inr ⟨req, rfl, ?_⟩
    cases hfull : ringFull u.sys.dev.sqTail u.sys.dev.cqHead with
    | true => exact .inl ⟨rfl, enter_full hpc hfull⟩
    | false =>
      by_cases hop : ValidOpcode req
      · exact .inr (.inl ⟨rfl, hop, enter_accepts hpc hfull hop⟩)
      · exact .inr (.inr ⟨rfl, hop, enter_refuses hpc hfull hop⟩)

theorem poll_cases (u : Proc) :
    (u.sys.dev.cqHead = u.sys.dev.cqTail ∧ u.pollStep = u) ∨
    (u.sys.dev.cqHead ≠ u.sys.dev.cqTail ∧ u.pollStep =
      { u with
        sys := u.sys.take
        returned := u.returned ++ [(cqAt u.sys.dev.slab (slotOf u.sys.dev.cqHead)).report] }) := by
  by_cases hempty : u.sys.dev.cqHead = u.sys.dev.cqTail
  · left
    simp [Proc.pollStep, EduDevice.pollCompletion, eduIocPollCq, poll_empty hempty,
      step_poll_empty hempty, hempty]
  · right
    simp [Proc.pollStep, EduDevice.pollCompletion, eduIocPollCq, poll_takes hempty,
      step_poll_takes hempty, hempty]

/-! ## What holds of the handle -/

theorem claimed_of_outside {s : Sys} {e : Event} (he : e.Outside) :
    (step s e).claimed = s.claimed := by
  generalize hs' : step s e = s'
  have heff : Effect s e s' := hs' ▸ step_effect s e
  cases heff with
  | reset | claim | take => exact absurd he id
  | post | resetStats => rfl
  | payload _ _ _ _ hsame _ _ | quiet _ _ _ hsame _ _ => exact hsame.claimed

theorem Event.Outside.feeds {e : Event} (he : e.Outside) : e.Feeds := by
  cases e with
  | «open» | submit | pollCq => exact absurd he id
  | _ => trivial

theorem OwnerInv.write {s : Sys} (h : OwnerInv s) (i : Fin ringSize) (entry : SqEntry) :
    OwnerInv { s with dev := { s.dev with slab := setSq s.dev.slab i entry } } :=
  h.same {} (h.ring.same {} fun _ => cqAt_setSq _ i.isLt _)

/-- The driver accepted a request that `sq_tail_` does not count yet. -/
def CallPc.pending : CallPc → Nat
  | .leaving (.ok ()) => 1
  | _ => 0

/-- The invariant of the handle. `sq_tail_` counts the accepted requests, and the driver's own
tail also those that it refused for their opcode. -/
structure HandleInv (u : Proc) : Prop where
  owner : OwnerInv u.sys
  claimed : u.sys.claimed.length = u.accepted.length + u.refused
  tail : (u.handle.sqTail.toNat + u.pc.pending) % ringSize = u.accepted.length % ringSize
  returned : u.returned = u.sys.delivered.map fun p => p.entry.report

namespace HandleInv

variable {u : Proc}

theorem opened (d : EduDev) : HandleInv (.opened d) := ⟨.start d, rfl, rfl, rfl⟩

theorem call (h : HandleInv u) (zc : Bool) (req : EduSubmitReq) : HandleInv (u.callStep zc req) := by
  unfold Proc.callStep
  split_ifs with hpc
  · have htail := h.tail
    rw [hpc] at htail
    exact ⟨h.owner.write _ _, h.claimed, htail, h.returned⟩
  · exact ⟨h.owner, h.claimed, h.tail, h.returned⟩
  · have htail := h.tail
    rw [hpc] at htail
    exact ⟨h.owner, h.claimed, htail, h.returned⟩
  · exact h

theorem enter (h : HandleInv u) : HandleInv u.enterStep := by
  have hclaimed := h.claimed
  have htail := h.tail
  obtain heq | ⟨req, hpc, hcase⟩ := enter_cases u
  · rw [heq]; exact h
  rw [hpc] at htail
  simp only [CallPc.pending, ringSize] at htail
  obtain ⟨hfull, heq⟩ | ⟨hroom, -, heq⟩ | ⟨hroom, -, heq⟩ := hcase <;> rw [heq]
  · have howner := h.owner.step (.submit 0 req)
    rw [step_submit_full hfull] at howner
    exact ⟨howner, hclaimed, htail, h.returned⟩
  · refine ⟨h.owner.claim 0 req hroom, ?_, ?_, h.returned⟩
    · simp only [OwnerInv.claim_length, List.length_append, List.length_singleton]
      omega
    · simp only [CallPc.pending, List.length_append, List.length_singleton, ringSize]
      omega
  · refine ⟨h.owner.claim 0 req hroom, ?_, htail, h.returned⟩
    simp only [OwnerInv.claim_length]
    omega

theorem leave (h : HandleInv u) : HandleInv u.leaveStep := by
  unfold Proc.leaveStep
  split
  · rename_i ret hpc
    refine ⟨h.owner, h.claimed, ?_, h.returned⟩
    have htail := h.tail
    rw [hpc] at htail
    cases ret with
    | error => exact htail
    | ok =>
      -- The counter wraps at 2^32, and 64 divides that.
      simp only [CallPc.pending, EduDevice.advance, BitVec.toNat_add, ringSize] at htail ⊢
      rw [← htail, show (1 : BitVec 32).toNat = 1 from rfl]
      omega
  · exact h

theorem poll (h : HandleInv u) : HandleInv u.pollStep := by
  obtain ⟨-, heq⟩ | ⟨hne, heq⟩ := poll_cases u <;> rw [heq]
  · exact h
  · have howner := h.owner.step (.pollCq 0)
    rw [step_poll_takes hne] at howner
    obtain ⟨p, -, hdelivered, hentry⟩ := delivered_take h.owner.ring hne
    refine ⟨howner, h.claimed, h.tail, ?_⟩
    simp only [hdelivered, hentry, h.returned, List.map_append, List.map_singleton]

theorem step (h : HandleInv u) (e : ProcEvent) : HandleInv (procStep u e) := by
  cases e with
  | call zc req => exact h.call zc req
  | enter => exact h.enter
  | leave => exact h.leave
  | poll => exact h.poll
  | mapRings | unmapRings =>
    simp only [procStep]
    split_ifs
    · exact ⟨h.owner, h.claimed, h.tail, h.returned⟩
    · exact h
  | kernel e =>
    simp only [procStep]
    split_ifs with he
    · refine ⟨h.owner.step e, ?_, h.tail, ?_⟩
      · rw [claimed_of_outside he]
        exact h.claimed
      · rw [delivered_of_feeds h.owner.ring he.feeds]
        exact h.returned
    · exact h

theorem reachable (d : EduDev) (evs : List ProcEvent) : HandleInv (run procStep (.opened d) evs) :=
  run_inv (fun _ e h => h.step e) (opened d)

/-- Between two submits, the two tails name the same slot exactly if the number of requests that
the driver refused for their opcode is a multiple of 64. -/
theorem slot_iff (h : HandleInv u) (hpc : u.pc = .idle) :
    slotOf u.handle.sqTail = slotOf u.sys.dev.sqTail ↔ u.refused % ringSize = 0 := by
  have htail := h.tail
  have hclaimed := h.claimed
  rw [hpc] at htail
  rw [Fin.ext_iff, h.owner.ring.sqTail.slot, slotOf_val]
  simp only [CallPc.pending, ringSize] at *
  omega

end HandleInv

end PcieDriver.Edu
