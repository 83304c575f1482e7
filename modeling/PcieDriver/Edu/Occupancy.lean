import PcieDriver.Edu.History

/-!
# Occupancy and the completion queue

Slots in flight and unread entries together never exceed the distance from `cq_head` to
`sq_tail`, and that is at most 63. So the handler finds room in the completion ring without
looking, and the ring is a queue.
-/

open Base

namespace PcieDriver.Edu

def Sys.queue (s : Sys) : List CqEntry := s.unread.map Post.entry

theorem inUse_open (e : EduDev) : inUse (eduOpen e).inflight = ∅ := inUse_zero

structure RingInv (s : Sys) : Prop where
  sqTail : At s.dev.sqTail s.claimed.length
  cqTail : At s.dev.cqTail s.posted.length
  cqHead : At s.dev.cqHead s.consumed
  consumed_le : s.consumed ≤ s.posted.length
  inflight_le : (inUse s.dev.inflight).card + s.posted.length ≤ s.claimed.length
  room : s.claimed.length ≤ s.consumed + 63
  queue : Holds (cqAt s.dev.slab) ringSize s.consumed s.queue

theorem RingInv.start (d : EduDev) : RingInv (start d) where
  sqTail := at_zero
  cqTail := at_zero
  cqHead := at_zero
  consumed_le := le_refl _
  inflight_le := by simp [Edu.start, inUse_open]
  room := Nat.zero_le _
  queue := Holds.nil

namespace RingInv

variable {s s' : Sys}

theorem posted_le (h : RingInv s) : s.posted.length ≤ s.claimed.length := by
  have := h.inflight_le
  omega

theorem queue_length (s : Sys) : s.queue.length = s.posted.length - s.consumed := by
  simp [Sys.queue, Sys.unread]

theorem full_iff (h : RingInv s) :
    ringFull s.dev.sqTail s.dev.cqHead = true ↔ s.claimed.length = s.consumed + 63 := by
  have := h.room
  exact h.sqTail.full_iff h.cqHead (h.consumed_le.trans h.posted_le) (by unfold ringSize; omega)

theorem not_full (h : RingInv s) (hlt : s.claimed.length < s.consumed + 63) :
    ringFull s.dev.sqTail s.dev.cqHead = false := by
  rw [Bool.eq_false_iff, ne_eq, h.full_iff]
  omega

theorem empty_iff (h : RingInv s) : s.dev.cqHead = s.dev.cqTail ↔ s.consumed = s.posted.length := by
  have := h.room
  have := h.posted_le
  exact h.cqHead.eq_iff h.cqTail h.consumed_le (by unfold ringSize; omega)

theorem queue_eq_nil (h : RingInv s) : s.queue = [] ↔ s.dev.cqHead = s.dev.cqTail := by
  rw [h.empty_iff, ← List.length_eq_zero_iff, queue_length]
  have := h.consumed_le
  omega

theorem room_of_inflight (h : RingInv s) {i : Fin ringSize} (hi : s.dev.inflight i ≠ 0) :
    s.queue.length < 63 := by
  have hpos : 0 < (inUse s.dev.inflight).card := Finset.card_pos.mpr ⟨i, by simpa using hi⟩
  have := h.inflight_le
  have := h.room
  rw [queue_length]
  omega

/-! ## Each effect keeps the invariant -/

theorem reset (s : Sys) : RingInv s.reset where
  sqTail := at_zero
  cqTail := at_zero
  cqHead := at_zero
  consumed_le := le_refl _
  inflight_le := by simp [Sys.reset, inUse_open]
  room := Nat.zero_le _
  queue := Holds.nil

theorem claim (h : RingInv s) (client : Nat) (req : EduSubmitReq)
    (hroom : ringFull s.dev.sqTail s.dev.cqHead = false) : RingInv (s.claim client req) where
  sqTail := by
    have := h.sqTail.next
    simpa [Sys.claim, claimSlot] using this
  cqTail := h.cqTail
  cqHead := h.cqHead
  consumed_le := h.consumed_le
  inflight_le := by
    have := card_inUse_update_le s.dev.inflight (slotOf s.dev.sqTail) req.opcode
    have := h.inflight_le
    simp only [Sys.claim, claimSlot, List.length_append, List.length_singleton]
    omega
  room := by
    have hne : s.claimed.length ≠ s.consumed + 63 := by
      rw [ne_eq, ← h.full_iff, hroom]
      exact Bool.false_ne_true
    have := h.room
    simp only [Sys.claim, List.length_append, List.length_singleton]
    omega
  queue := h.queue.congr (by decide) fun i _ => cqAt_setSq _ (slotOf _).isLt _

theorem queue_post (h : RingInv s) (i : Fin ringSize) (stat fact : BitVec 32) :
    (s.post i stat fact).queue = s.queue ++ [completionOf s.dev i fact] := by
  simp [Sys.queue, Sys.unread, Sys.post, List.drop_append_of_le_length h.consumed_le]

theorem post (h : RingInv s) {i : Fin ringSize} (stat fact : BitVec 32)
    (hi : s.dev.inflight i ≠ 0) : RingInv (s.post i stat fact) where
  sqTail := h.sqTail
  cqTail := by
    have := h.cqTail.next
    simpa [Sys.post, postCompletion, acknowledged] using this
  cqHead := h.cqHead
  consumed_le := by
    have := h.consumed_le
    simp only [Sys.post, List.length_append, List.length_singleton]
    omega
  inflight_le := by
    have := card_inUse_clear s.dev.inflight hi
    have := h.inflight_le
    simp only [Sys.post, postCompletion, acknowledged, List.length_append, List.length_singleton]
    omega
  room := h.room
  queue := by
    have hroom := h.room_of_inflight hi
    have htail : (s.consumed + s.queue.length) % ringSize = (slotOf s.dev.cqTail).val := by
      have := h.consumed_le
      rw [h.cqTail.slot, queue_length]
      congr 1
      omega
    rw [h.queue_post]
    refine h.queue.push (by unfold ringSize; omega) ?_ ?_
    · rw [htail]
      exact cqAt_setCq_same _ _ _
    · intro j _ hne
      rw [htail] at hne
      exact cqAt_setCq_ne _ (Ne.symm hne) _

theorem queue_take (s : Sys) : s.take.queue = s.queue.tail := by
  simp [Sys.queue, Sys.unread, Sys.take, List.tail_drop]

theorem take (h : RingInv s) (hne : s.dev.cqHead ≠ s.dev.cqTail) : RingInv s.take where
  sqTail := h.sqTail
  cqTail := h.cqTail
  cqHead := h.cqHead.next
  consumed_le := by
    have := h.consumed_le
    have := h.empty_iff.not.mp hne
    simp only [Sys.take]
    omega
  inflight_le := h.inflight_le
  room := by
    have := h.room
    simp only [Sys.take]
    omega
  queue := by
    have hq : s.queue ≠ [] := h.queue_eq_nil.not.mpr hne
    obtain ⟨x, q, hxq⟩ := List.exists_cons_of_ne_nil hq
    have := h.queue
    rw [hxq] at this
    rw [queue_take, hxq]
    exact this.pop

theorem same (h : RingInv s) (hsame : SameRing s s')
    (hcq : ∀ i, cqAt s'.dev.slab i = cqAt s.dev.slab i) : RingInv s' where
  sqTail := by rw [hsame.sqTail, hsame.claimed]; exact h.sqTail
  cqTail := by rw [hsame.cqTail, hsame.posted]; exact h.cqTail
  cqHead := by rw [hsame.cqHead, hsame.consumed]; exact h.cqHead
  consumed_le := by rw [hsame.consumed, hsame.posted]; exact h.consumed_le
  inflight_le := by rw [hsame.inflight, hsame.posted, hsame.claimed]; exact h.inflight_le
  room := by rw [hsame.consumed, hsame.claimed]; exact h.room
  queue := by
    rw [Sys.queue, Sys.unread, hsame.posted, hsame.consumed]
    exact h.queue.congr (by decide) fun i _ => hcq i

theorem step (h : RingInv s) (e : Event) : RingInv (step s e) := by
  generalize hs' : Edu.step s e = s'
  have heff : Effect s e s' := hs' ▸ step_effect s e
  cases heff with
  | reset client => exact reset s
  | claim client req hroom => exact h.claim client req hroom
  | post stat fact i _ hfirst => exact h.post stat fact (firstInflight_some.mp hfirst).1
  | take client hne => exact h.take hne
  | payload _ bs _ _ hsame _ hslab =>
    exact h.same hsame fun i => by rw [hslab]; exact cqAt_setPayload _ _
  | resetStats => exact h.same {} fun _ => rfl
  | quiet _ _ _ hsame _ hslab => exact h.same hsame fun i => by rw [hslab]

theorem reachable (d : EduDev) (evs : List Event) : RingInv (run Edu.step (Edu.start d) evs) :=
  run_inv (fun _ e h => h.step e) (RingInv.start d)

end RingInv

/-! ## What has been delivered -/

/-- The event is neither an open nor a poll, so it delivers nothing. -/
def Event.Feeds : Event → Prop
  | .open _ | .pollCq _ => False
  | _ => True

theorem delivered_of_feeds {s : Sys} (h : RingInv s) {e : Event} (he : e.Feeds) :
    (step s e).delivered = s.delivered := by
  generalize hs' : step s e = s'
  have heff : Effect s e s' := hs' ▸ step_effect s e
  cases heff with
  | reset | take => exact absurd he id
  | claim | resetStats => rfl
  | post => exact List.take_append_of_le_length h.consumed_le
  | payload _ _ _ _ hsame _ _ | quiet _ _ _ hsame _ _ =>
    rw [Sys.delivered, hsame.posted, hsame.consumed]
    rfl

theorem delivered_take {s : Sys} (h : RingInv s) (hne : s.dev.cqHead ≠ s.dev.cqTail) :
    ∃ p, s.posted[s.consumed]? = some p ∧ s.take.delivered = s.delivered ++ [p] ∧
      cqAt s.dev.slab (slotOf s.dev.cqHead) = p.entry := by
  have hlt : s.consumed < s.posted.length :=
    lt_of_le_of_ne h.consumed_le (h.empty_iff.not.mp hne)
  have hq : s.queue = s.posted[s.consumed].entry :: (s.posted.drop (s.consumed + 1)).map Post.entry := by
    rw [Sys.queue, Sys.unread, List.drop_eq_getElem_cons hlt, List.map_cons]
  have hcell := h.queue
  rw [hq] at hcell
  refine ⟨s.posted[s.consumed], List.getElem?_eq_getElem hlt, ?_, ?_⟩
  · exact (List.take_append_getElem hlt).symm
  · rw [h.cqHead.slot, hcell.head_eq]

/-! ## The counters -/

def Event.Counts : Event → Prop
  | .open _ | .resetStats => False
  | _ => True

instance : ∀ e : Event, Decidable e.Counts
  | .open _ | .resetStats => .isFalse id
  | .submit _ _ | .irq _ _ | .pollCq _ | .factorial _ | .dmaTest | .arm | .wake _ | .timeout
  | .dmaWrite _ | .setEventfd _ => .isTrue trivial

structure Counted (d : EduDev) (s : Sys) : Prop where
  submitted : s.dev.statSqSubmitted = d.statSqSubmitted + s.claimed.length
  posted : s.dev.statCqPosted = d.statCqPosted + s.posted.length
  consumed : s.dev.statCqConsumed = d.statCqConsumed + s.consumed

theorem Counted.start (d : EduDev) : Counted d (start d) := ⟨rfl, rfl, rfl⟩

theorem Counted.step {d : EduDev} {s : Sys} (h : Counted d s) {e : Event} (he : e.Counts) :
    Counted d (step s e) := by
  generalize hs' : Edu.step s e = s'
  have heff : Effect s e s' := hs' ▸ step_effect s e
  cases heff with
  | reset | resetStats => exact absurd he id
  | claim client req _ =>
    refine ⟨?_, h.posted, h.consumed⟩
    simp [Sys.claim, claimSlot, h.submitted, Nat.add_assoc]
  | post stat fact i _ _ =>
    refine ⟨h.submitted, ?_, h.consumed⟩
    simp [Sys.post, postCompletion, acknowledged, h.posted, Nat.add_assoc]
  | take client _ =>
    refine ⟨h.submitted, h.posted, ?_⟩
    simp [Sys.take, taken, h.consumed, Nat.add_assoc]
  | payload _ _ _ _ hsame hstats _ | quiet _ _ _ hsame hstats _ =>
    exact ⟨by rw [hstats.submitted, hsame.claimed, h.submitted],
      by rw [hstats.posted, hsame.posted, h.posted],
      by rw [hstats.consumed, hsame.consumed, h.consumed]⟩

theorem submit_enospc_iff (e : EduDev) (req : EduSubmitReq) :
    (eduRingSubmit e req).2.2 = .error .enospc ↔ ringFull e.sqTail e.cqHead = true := by
  cases hfull : ringFull e.sqTail e.cqHead with
  | true => simp [submit_full hfull]
  | false =>
    by_cases hop : ValidOpcode req
    · simp [submit_accepts hfull hop]
    · simp [submit_refuses_opcode hfull hop]

/-- The counters and the indices agree, between one open and the next. -/
theorem occupancy_accounting (d : EduDev) (evs : List Event) (h : ∀ e ∈ evs, e.Counts) :
    let s := run step (start d) evs
    ∃ S P C : Nat,
      s.dev.statSqSubmitted = d.statSqSubmitted + S ∧
      s.dev.statCqPosted = d.statCqPosted + P ∧
      s.dev.statCqConsumed = d.statCqConsumed + C ∧
      C ≤ P ∧ P ≤ S ∧ S - C ≤ 63 ∧
      ((s.dev.sqTail - s.dev.cqHead) &&& ringMask).toNat = S - C ∧
      (ringInflight s.dev).toNat = P - C ∧
      ∀ req, (eduRingSubmit s.dev req).2.2 = .error .enospc ↔ S - C = 63 := by
  intro s
  have hinv : RingInv s := RingInv.reachable d evs
  have hcount : Counted d s := by
    have hall : Along step (fun _ e => e.Counts) (start d) evs := along_of_forall fun _ e he => h e he
    exact (Always.of_step (I := Counted d) (fun _ _ hc he => hc.step he) (Counted.start d) hall).last
  have hP := hinv.posted_le
  have hC := hinv.consumed_le
  have hroom := hinv.room
  refine ⟨_, _, _, hcount.submitted, hcount.posted, hcount.consumed, hC, hP, by omega, ?_, ?_, ?_⟩
  · exact hinv.sqTail.sub hinv.cqHead (by omega) (by unfold ringSize; omega)
  · exact hinv.cqTail.sub hinv.cqHead hC (by unfold ringSize; omega)
  · intro req
    rw [submit_enospc_iff, hinv.full_iff]
    omega

theorem occupancy_accounting_run :
    let d := freshDev
    let evs : List Event := [.submit 0 ⟨7, 1, 5⟩, .submit 0 ⟨8, 9, 0⟩, .irq 1 120, .pollCq 0]
    (∀ e ∈ evs, e.Counts) ∧
      ∃ S P C : Nat, (run step (start d) evs).dev.statSqSubmitted = d.statSqSubmitted + S ∧
        (run step (start d) evs).dev.statCqPosted = d.statCqPosted + P ∧
        (run step (start d) evs).dev.statCqConsumed = d.statCqConsumed + C ∧ C ≤ P ∧ P ≤ S := by
  intro d evs
  have hevs : ∀ e ∈ evs, e.Counts := by decide
  obtain ⟨S, P, C, hS, hP, hC, hCP, hPS, _⟩ := occupancy_accounting d evs hevs
  exact ⟨hevs, S, P, C, hS, hP, hC, hCP, hPS⟩

end PcieDriver.Edu
