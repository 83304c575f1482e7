import PcieDriver.Edu.Queue

/-!
# A poll whose copy fails

`edu_poll_cq` moves `cq_head` under the lock, and `EDU_IOC_POLL_CQ` copies the entry to the caller
after that. If the copy fails, the entry is gone.
-/

open Base

namespace PcieDriver.Edu

/-! ## One poll -/

/-- The entries from `cq_head` to `cq_tail`, the oldest first. -/
def unreadEntries (e : EduDev) : List CqEntry :=
  (List.range (ringInflight e).toNat).map fun k =>
    cqAt e.slab (slotOf (e.cqHead + BitVec.ofNat 32 k))

/-- If the ioctl returns an error, the head, the counter and the unread entries are as before. -/
def KeepsOnError (e : EduDev) (copied : Bool) : Prop :=
  let (e', ret) := eduIocPollCq e copied
  (∀ out, ret ≠ .ok out) →
    e'.cqHead = e.cqHead ∧ e'.statCqConsumed = e.statCqConsumed ∧ unreadEntries e' = unreadEntries e

/-- The copy works, or there is nothing to copy. -/
def CopyWorks (e : EduDev) (copied : Bool) : Prop := copied = true ∨ e.cqHead = e.cqTail

section
variable {e : EduDev} {copied : Bool}

theorem iocPoll_empty (h : e.cqHead = e.cqTail) : eduIocPollCq e copied = (e, .error .eagain) := by
  simp [eduIocPollCq, poll_empty h]

theorem iocPoll_copies (h : e.cqHead ≠ e.cqTail) :
    eduIocPollCq e true = (taken e, .ok (cqAt e.slab (slotOf e.cqHead)).report) := by
  simp [eduIocPollCq, poll_takes h]

theorem iocPoll_faults (h : e.cqHead ≠ e.cqTail) :
    eduIocPollCq e false = (taken e, .error .efault) := by
  simp [eduIocPollCq, poll_takes h]

theorem keepsOnError_iff : KeepsOnError e copied ↔ CopyWorks e copied := by
  by_cases hempty : e.cqHead = e.cqTail
  · simp [KeepsOnError, CopyWorks, iocPoll_empty hempty, hempty]
  · cases copied with
    | true => simp [KeepsOnError, CopyWorks, iocPoll_copies hempty]
    | false =>
      rw [KeepsOnError, iocPoll_faults hempty, CopyWorks]
      refine iff_of_false (fun h => ?_) (by simp [hempty])
      obtain ⟨-, hconsumed, -⟩ := h (by simp)
      exact absurd hconsumed (Nat.succ_ne_self _)

end

/-! ## Runs -/

/-- The driver, and what the successful polls since the open returned. -/
structure Reader where
  sys : Sys
  returned : List EduCompletionReq

inductive ReadEvent
  | submit (client : Nat) (req : EduSubmitReq)
  | irq (stat fact : BitVec 32)
  | poll (copied : Bool)
  deriving DecidableEq

namespace Reader

def opened (d : EduDev) : Reader := ⟨start d, []⟩

def pollStep (r : Reader) (copied : Bool) : Reader where
  sys := step r.sys (.pollCq 0)
  returned := match (eduIocPollCq r.sys.dev copied).2 with
    | .ok out => r.returned ++ [out]
    | .error _ => r.returned

end Reader

def readStep (r : Reader) : ReadEvent → Reader
  | .submit client req => { r with sys := step r.sys (.submit client req) }
  | .irq stat fact => { r with sys := step r.sys (.irq stat fact) }
  | .poll copied => r.pollStep copied

theorem pollStep_dev (r : Reader) (copied : Bool) :
    (r.pollStep copied).sys.dev = (eduIocPollCq r.sys.dev copied).1 := by
  by_cases hempty : r.sys.dev.cqHead = r.sys.dev.cqTail
  · rw [iocPoll_empty hempty]
    simp [Reader.pollStep, step_poll_empty hempty]
  · simp only [Reader.pollStep, step_poll_takes hempty]
    cases copied with
    | true => rw [iocPoll_copies hempty]; rfl
    | false => rw [iocPoll_faults hempty]; rfl

def PollKeeps (r : Reader) : ReadEvent → Prop
  | .poll copied => KeepsOnError r.sys.dev copied
  | _ => True

def PollCopies (r : Reader) : ReadEvent → Prop
  | .poll copied => CopyWorks r.sys.dev copied
  | _ => True

/-- What was taken from the queue was returned, each entry once and in order. So everything that
was posted has been returned when the queue is empty. -/
structure ReturnedOnce (r : Reader) : Prop where
  taken : r.returned = r.sys.delivered.map fun p => p.entry.report
  all : r.sys.dev.cqHead = r.sys.dev.cqTail → r.returned = r.sys.posted.map fun p => p.entry.report

structure ReadInv (r : Reader) : Prop where
  ring : RingInv r.sys
  returned : r.returned = r.sys.delivered.map fun p => p.entry.report

namespace ReadInv

variable {r : Reader}

theorem opened (d : EduDev) : ReadInv (.opened d) := ⟨.start d, rfl⟩

theorem once (h : ReadInv r) : ReturnedOnce r := by
  refine ⟨h.returned, fun hempty => ?_⟩
  rw [h.returned, Sys.delivered, h.ring.empty_iff.mp hempty, List.take_length]

theorem poll (h : ReadInv r) {copied : Bool} (he : CopyWorks r.sys.dev copied) :
    ReadInv (r.pollStep copied) := by
  by_cases hempty : r.sys.dev.cqHead = r.sys.dev.cqTail
  · rw [Reader.pollStep, step_poll_empty hempty, iocPoll_empty hempty]
    exact h
  · obtain rfl : copied = true := he.resolve_right hempty
    obtain ⟨p, -, hdelivered, hentry⟩ := delivered_take h.ring hempty
    rw [Reader.pollStep, step_poll_takes hempty, iocPoll_copies hempty, hentry]
    refine ⟨h.ring.take hempty, ?_⟩
    rw [hdelivered, h.returned, List.map_append, List.map_singleton]

theorem feed (h : ReadInv r) {e : Event} (he : e.Feeds) :
    ReadInv { r with sys := Edu.step r.sys e } :=
  ⟨h.ring.step e, by rw [delivered_of_feeds h.ring he]; exact h.returned⟩

theorem step (h : ReadInv r) {e : ReadEvent} (he : PollCopies r e) : ReadInv (readStep r e) := by
  cases e with
  | submit client req => exact h.feed (e := .submit client req) trivial
  | irq stat fact => exact h.feed (e := .irq stat fact) trivial
  | poll copied => exact h.poll he

end ReadInv

theorem pollKeeps_iff (r : Reader) (e : ReadEvent) : PollKeeps r e ↔ PollCopies r e := by
  cases e with
  | poll copied => exact keepsOnError_iff
  | submit | irq => exact Iff.rfl

/-- **A poll loses nothing** exactly if its copy works or the queue is empty. A run returns every
posted entry once exactly if this holds of all its polls. -/
theorem poll_loses_nothing_iff (d : EduDev) :
    (∀ (evs : List Event) (copied : Bool),
      let e := (run step (start d) evs).dev
      KeepsOnError e copied ↔ CopyWorks e copied) ∧
    ∀ evs : List ReadEvent,
      (Along readStep PollKeeps (.opened d) evs ∧ Always readStep ReturnedOnce (.opened d) evs) ↔
        Along readStep PollCopies (.opened d) evs := by
  refine ⟨fun evs copied => keepsOnError_iff, fun evs => ⟨fun ⟨hkeeps, _⟩ => ?_, fun hcopies => ?_⟩⟩
  · exact hkeeps.mono fun r e he => (pollKeeps_iff r e).mp he
  · refine ⟨hcopies.mono fun r e he => (pollKeeps_iff r e).mpr he, ?_⟩
    have hinv : Always readStep ReadInv (.opened d) evs :=
      Always.of_step (fun _ _ hr he => hr.step he) (.opened d) hcopies
    exact hinv.mono fun _ hr => hr.once

/-- One command, one completion, and a poll whose copy fails: the next poll finds nothing. -/
theorem failed_copy_loses_completion :
    let evs : List ReadEvent := [.submit 0 ⟨7, eduOpFactorial, 5⟩, .irq 1 120]
    let r := run readStep (.opened freshDev) evs
    let r' := run readStep r [.poll false]
    ¬ KeepsOnError r.sys.dev false ∧ ¬ Always readStep ReturnedOnce r [.poll false] ∧
      (eduIocPollCq r.sys.dev false).2 = .error .efault ∧
      (eduIocPollCq r'.sys.dev true).2 = .error .eagain ∧ r'.returned = [] := by
  intro evs r r'
  have hne : r.sys.dev.cqHead ≠ r.sys.dev.cqTail := by decide
  refine ⟨?_, ?_, by decide, by decide, by decide⟩
  · rw [keepsOnError_iff, CopyWorks]
    simp [hne]
  · intro hall
    have htaken : r'.returned = r'.sys.delivered.map fun p => p.entry.report := hall.last.taken
    exact absurd htaken (by decide)

end PcieDriver.Edu
