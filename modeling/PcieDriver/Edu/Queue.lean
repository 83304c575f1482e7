import PcieDriver.Edu.Occupancy

/-!
# The completion ring is a queue

`fifoOp` says what each step means to an abstract queue of posted entries. The ring between
`cq_head` and `cq_tail` is that queue after every run.
-/

open Base

namespace PcieDriver.Edu

def fifoOp (s : Sys) : Event → FifoOp CqEntry
  | .open _ => .clear
  | .irq stat fact =>
    match (eduIrqHandler s.dev stat fact).2.posted with
    | some (_, entry) => .push entry
    | none => .skip
  | .pollCq _ => .pop
  | _ => .skip

/-- The ring between `cq_head` and `cq_tail` holds `q`, the oldest entry at `cq_head`. -/
structure IsQueue (e : EduDev) (q : List CqEntry) : Prop where
  length_lt : q.length < ringSize
  cqTail : e.cqTail.toNat = (e.cqHead.toNat + q.length) % ringSize
  holds : Holds (cqAt e.slab) ringSize e.cqHead.toNat q

theorem RingInv.isQueue {s : Sys} (h : RingInv s) : IsQueue s.dev s.queue where
  length_lt := by
    have := h.posted_le
    have := h.room
    rw [queue_length, ringSize]
    omega
  cqTail := by
    have := h.consumed_le
    rw [h.cqTail, h.cqHead, queue_length, Nat.mod_add_mod]
    congr 1
    omega
  holds := by
    rw [h.cqHead]
    exact h.queue.mod_head

/-! ## Each step is its queue operation -/

section
variable {s : Sys}

theorem fifoOp_irq_idle {stat fact : BitVec 32} (h : stat = 0 ∨ firstInflight s.dev = none) :
    fifoOp s (.irq stat fact) = .skip := by
  by_cases hstat : stat = 0
  · subst hstat; rfl
  · simp [fifoOp, irq_idle hstat (h.resolve_left hstat)]

theorem fifoOp_irq_posts {stat fact : BitVec 32} {i : Fin ringSize} (hstat : stat ≠ 0)
    (h : firstInflight s.dev = some i) :
    fifoOp s (.irq stat fact) = .push (completionOf s.dev i fact) := by
  simp [fifoOp, irq_posts hstat h]

theorem SameRing.queue {s' : Sys} (h : SameRing s s') : s'.queue = s.queue := by
  rw [Sys.queue, Sys.unread, h.posted, h.consumed]; rfl

theorem next_of_payload {e : Event} {bs : List Byte} (h : payloadOf s e = some bs) :
    (fifoOp s e).next s.queue = s.queue := by
  cases e <;> first | rfl | simp [payloadOf] at h

theorem next_of_idle (hinv : RingInv s) {e : Event} (h : Idle s e) :
    (fifoOp s e).next s.queue = s.queue := by
  cases e with
  | «open» | resetStats => exact absurd h id
  | irq stat fact => rw [fifoOp_irq_idle h]; rfl
  | pollCq client =>
    have : s.queue = [] := hinv.queue_eq_nil.mpr h
    rw [this]; rfl
  | submit | factorial | dmaTest | arm | wake | timeout | dmaWrite | setEventfd => rfl

theorem queue_step (hinv : RingInv s) (e : Event) : (step s e).queue = (fifoOp s e).next s.queue := by
  generalize hs' : Edu.step s e = s'
  have heff : Effect s e s' := hs' ▸ step_effect s e
  cases heff with
  | reset client | claim client req hroom | resetStats => rfl
  | post stat fact i hstat hfirst => rw [hinv.queue_post, fifoOp_irq_posts hstat hfirst]; rfl
  | take client hne => exact RingInv.queue_take s
  | payload _ bs _ hbs hsame _ _ => rw [hsame.queue, next_of_payload hbs]
  | quiet _ _ hidle hsame _ _ => rw [hsame.queue, next_of_idle hinv hidle]

end

theorem queue_run (d : EduDev) (evs : List Event) :
    (run step (start d) evs).queue = run FifoOp.next [] (trace step fifoOp (start d) evs) := by
  have hstep : ∀ s q e, (RingInv s ∧ s.queue = q) →
      RingInv (step s e) ∧ (step s e).queue = (fifoOp s e).next q :=
    fun s q e h => ⟨h.1.step e, by rw [queue_step h.1 e, h.2]⟩
  have h0 : RingInv (start d) ∧ (start d).queue = [] := ⟨RingInv.start d, rfl⟩
  exact (run_simulates hstep h0 evs).2

/-! ## What the handler and the readers see -/

/-- The handler writes one completion cell, and it is not one that holds an unread entry. -/
theorem handler_keeps_unread {s : Sys} (h : RingInv s) (stat fact : BitVec 32) {j : Nat}
    (hj : InQueue ringSize s.dev.cqHead.toNat s.queue.length j) :
    cqAt (eduIrqHandler s.dev stat fact).1.slab j = cqAt s.dev.slab j := by
  by_cases hstat : stat = 0
  · subst hstat; rfl
  cases hfirst : firstInflight s.dev with
  | none => rw [irq_idle hstat hfirst]; rfl
  | some i =>
    have hroom := h.room_of_inflight (firstInflight_some.mp hfirst).1
    have htail := h.isQueue.cqTail
    have hslot := h.cqTail.slot
    rw [irq_posts hstat hfirst]
    refine cqAt_setCq_ne _ ?_ _
    rintro rfl
    have hcell : (slotOf s.dev.cqTail).val = (s.dev.cqHead.toNat + s.queue.length) % ringSize := by
      rw [hslot, ← htail, h.cqTail]
    rw [show (acknowledged s.dev stat).cqTail = s.dev.cqTail from rfl, hcell] at hj
    exact tail_not_inQueue (by unfold ringSize; omega) hj

theorem poll_head {s : Sys} (h : RingInv s) :
    (eduPollCq s.dev).2 = match s.queue with
      | [] => .error .eagain
      | entry :: _ => .ok entry.report := by
  by_cases hempty : s.dev.cqHead = s.dev.cqTail
  · rw [poll_empty hempty, h.queue_eq_nil.mpr hempty]
  · obtain ⟨x, q, hxq⟩ := List.exists_cons_of_ne_nil (h.queue_eq_nil.not.mpr hempty)
    have hcell := h.queue
    rw [hxq] at hcell
    rw [poll_takes hempty, hxq, h.cqHead.slot, hcell.head_eq]

theorem poll_mask_iff {s : Sys} (h : RingInv s) : eduPoll s.dev &&& epollIn ≠ 0 ↔ s.queue ≠ [] := by
  rw [ne_eq, ne_eq, h.queue_eq_nil]
  by_cases hempty : s.dev.cqHead = s.dev.cqTail
  · simp [eduPoll, hempty]
  · simp only [eduPoll, ne_eq, hempty, not_false_eq_true, if_true, iff_true]
    decide

/-- **The completion ring refines a queue**, after every run from an open. -/
theorem completion_ring_refines_fifo (d : EduDev) (evs : List Event) :
    let s := run step (start d) evs
    let q := run FifoOp.next [] (trace step fifoOp (start d) evs)
    IsQueue s.dev q ∧
    (∀ stat fact j, InQueue ringSize s.dev.cqHead.toNat q.length j →
      cqAt (eduIrqHandler s.dev stat fact).1.slab j = cqAt s.dev.slab j) ∧
    ((eduPollCq s.dev).2 = match q with
      | [] => .error .eagain
      | entry :: _ => .ok entry.report) ∧
    (eduPoll s.dev &&& epollIn ≠ 0 ↔ q ≠ []) := by
  intro s q
  have h : RingInv s := RingInv.reachable d evs
  have hq : s.queue = q := queue_run d evs
  rw [← hq]
  exact ⟨h.isQueue, fun stat fact j hj => handler_keeps_unread h stat fact hj, poll_head h,
    poll_mask_iff h⟩

end PcieDriver.Edu
