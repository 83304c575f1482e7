import PcieDriver.Edu.Integrity
import PcieDriver.Edu.Userspace

/-!
# One command at a time

A submit comes only when no slot is in flight, and a legacy call works only then. The completions
that come back are then those of the accepted requests, in order.
-/

open Base

namespace PcieDriver.Edu

/-- The completion that `req` ought to get from the interrupt that made `p`. -/
def completed (req : EduSubmitReq) (p : Post) : EduCompletionReq :=
  ⟨req.tag, 0, if req.opcode = eduOpFactorial then p.fact else 0⟩

/-! ## The driver -/

def OneAtATime (s : Sys) : Event → Prop
  | .open _ => False
  | .submit _ req => ValidOpcode req ∧ inUse s.dev.inflight = ∅
  | e => (payloadOf s e).isSome → inUse s.dev.inflight = ∅

/-- At most the newest command is in flight, and post `n` is the completion of command `n`. -/
structure Serial (s : Sys) : Prop where
  intact : Intact s
  count : (inUse s.dev.inflight).card + s.posted.length = s.claimed.length
  owner : ∀ i, s.dev.inflight i ≠ 0 → s.owner i = s.posted.length
  entries : ∀ n p, s.posted[n]? = some p →
    ∃ c, s.claimed[n]? = some c ∧ p.num = n ∧ p.entry.report = completed c.req p

namespace Serial

variable {s s' : Sys}

theorem start (d : EduDev) : Serial (start d) where
  intact := fun _ hi => absurd rfl hi
  count := by simp [Edu.start, inUse_open]
  owner := fun _ hi => absurd rfl hi
  entries := by simp [Edu.start]

theorem claim (h : Serial s) (client : Nat) {req : EduSubmitReq} (hop : ValidOpcode req)
    (hnone : inUse s.dev.inflight = ∅) : Serial (s.claim client req) where
  intact := intact_claim h.intact client req
  count := by
    have hfree := (inUse_eq_empty _).mp hnone
    have hcard := card_inUse_set s.dev.inflight hop.ne_zero (hfree (slotOf s.dev.sqTail))
    have := h.count
    rw [OwnerInv.claim_length]
    simp only [Sys.claim, claimSlot, hcard]
    omega
  owner := by
    have hcount := h.count
    rw [hnone, Finset.card_empty, Nat.zero_add] at hcount
    intro i hi
    by_cases hslot : i = slotOf s.dev.sqTail
    · subst hslot
      rw [OwnerInv.claim_slot.2, ← hcount]
      rfl
    · rw [(OwnerInv.claim_other hslot).1] at hi
      exact absurd ((inUse_eq_empty _).mp hnone i) hi
  entries := by
    intro n p hp
    obtain ⟨c, hc, hrest⟩ := h.entries n p hp
    exact ⟨c, getElem?_claim hc, hrest⟩

theorem report_of_carries {e : EduDev} {i : Fin ringSize} {req : EduSubmitReq} {n : Nat}
    {fact : BitVec 32} (h : (sqAt e.slab i).Carries req) :
    (completionOf e i fact).report = completed req ⟨n, completionOf e i fact, fact⟩ := by
  simp only [CqEntry.report, completionOf, completed, h.1, h.2.1]

theorem post (h : Serial s) (hinv : OwnerInv s) {i : Fin ringSize} (stat fact : BitVec 32)
    (hi : s.dev.inflight i ≠ 0) : Serial (s.post i stat fact) where
  intact := intact_post h.intact i stat fact
  count := by
    have hcard := card_inUse_clear s.dev.inflight hi
    have := h.count
    simp only [Sys.post, postCompletion, acknowledged, List.length_append, List.length_singleton]
    omega
  owner := by
    intro j hj
    obtain ⟨hne, hj⟩ := OwnerInv.post_other hj
    -- The newest command has one slot only.
    have heq := hinv.owner_inj hj hi ((h.owner j hj).trans (h.owner i hi).symm)
    exact absurd heq hne
  entries := by
    intro n p hp
    simp only [Sys.post] at hp ⊢
    rcases Nat.lt_trichotomy n s.posted.length with hlt | rfl | hgt
    · rw [List.getElem?_append_left hlt] at hp
      exact h.entries n p hp
    · obtain rfl : _ = p := by simpa using hp
      obtain ⟨c, hc, hcarries⟩ := h.intact i hi
      rw [h.owner i hi] at hc ⊢
      exact ⟨c, hc, rfl, report_of_carries hcarries⟩
    · rw [List.getElem?_eq_none (by simp; omega)] at hp
      exact absurd hp (by simp)

theorem same (h : Serial s) (hsame : SameRing s s') (hintact : Intact s') : Serial s' where
  intact := hintact
  count := by rw [hsame.inflight, hsame.posted, hsame.claimed]; exact h.count
  owner := by rw [hsame.inflight, hsame.posted, hsame.owner]; exact h.owner
  entries := by rw [hsame.posted, hsame.claimed]; exact h.entries

theorem intact_of_none (h : inUse s.dev.inflight = ∅) : Intact s :=
  fun i hi => absurd ((inUse_eq_empty _).mp h i) hi

theorem step (h : Serial s) (hinv : OwnerInv s) {e : Event} (he : OneAtATime s e) :
    Serial (step s e) := by
  generalize hs' : Edu.step s e = s'
  have heff : Effect s e s' := hs' ▸ step_effect s e
  cases heff with
  | reset => exact absurd he id
  | claim client req _ => exact h.claim client he.1 he.2
  | post stat fact i _ hfirst => exact h.post hinv stat fact (firstInflight_some.mp hfirst).1
  | take | resetStats => exact ⟨h.intact, h.count, h.owner, h.entries⟩
  | payload _ bs _ hbs hsame _ _ =>
    have hnone : inUse s.dev.inflight = ∅ := by
      cases e with
      | «open» | submit => simp [payloadOf] at hbs
      | _ => exact he (by rw [hbs]; rfl)
    exact h.same hsame (intact_of_none (by rw [hsame.inflight]; exact hnone))
  | quiet _ _ _ hsame _ hslab =>
    exact h.same hsame (intact_same h.intact hsame fun i _ => by rw [hslab]; exact ⟨rfl, rfl, rfl⟩)

theorem posted_le (h : Serial s) : s.posted.length ≤ s.claimed.length := by
  have := h.count
  omega

theorem nums (h : Serial s) : s.posted.map Post.num = List.range s.posted.length := by
  apply List.ext_getElem?
  intro n
  cases hp : s.posted[n]? with
  | none =>
    have hlen : s.posted.length ≤ n := List.getElem?_eq_none_iff.mp hp
    rw [List.getElem?_map, hp, List.getElem?_eq_none (by simpa using hlen)]
    rfl
  | some p =>
    obtain ⟨hlt, -⟩ := List.getElem?_eq_some_iff.mp hp
    obtain ⟨-, -, hnum, -⟩ := h.entries n p hp
    rw [List.getElem?_map, hp, List.getElem?_range hlt, Option.map_some, hnum]

theorem reports (h : Serial s) : s.posted.map (fun p => p.entry.report) =
    List.zipWith completed (s.claimed.map Cmd.req) s.posted := by
  apply List.ext_getElem?
  intro n
  rw [List.getElem?_map, List.getElem?_zipWith, List.getElem?_map]
  cases hp : s.posted[n]? with
  | none => cases s.claimed[n]? <;> rfl
  | some p =>
    obtain ⟨c, hc, -, hreport⟩ := h.entries n p hp
    rw [hc, Option.map_some, hreport]
    rfl

end Serial

/-! ## The handle -/

/-- A piece of a legacy ioctl, the transfer that the device does for it included. -/
def Event.Legacy : Event → Prop
  | .factorial _ | .dmaTest | .arm | .wake _ | .timeout | .dmaWrite _ => True
  | _ => False

/-- Submits with a known opcode and legacy work come only when no slot is in flight. Interrupts and
polls come at any time. -/
def DepthOne (u : Proc) : ProcEvent → Prop
  | .call _ req => ValidOpcode req ∧ inUse u.sys.dev.inflight = ∅
  | .kernel e => e.Legacy → inUse u.sys.dev.inflight = ∅
  | _ => True

/-- The completions come back in the order of the accepted requests, each once, and between two
calls the two tails are the same. -/
structure InOrder (u : Proc) : Prop where
  inOrder : u.returned <+: List.zipWith completed u.accepted u.sys.posted
  posted_le : u.sys.posted.length ≤ u.accepted.length
  once : u.sys.posted.map Post.num = List.range u.sys.posted.length
  tail : u.pc = .idle → u.handle.sqTail.toNat % ringSize = u.sys.dev.sqTail.toNat

structure DepthInv (u : Proc) : Prop where
  handle : HandleInv u
  serial : Serial u.sys
  refused : u.refused = 0
  accepted : u.sys.claimed.map Cmd.req = u.accepted
  entering : ∀ req, u.pc = .entering req → ValidOpcode req ∧ inUse u.sys.dev.inflight = ∅

theorem oneAtATime_of_outside {s : Sys} {e : Event} (he : e.Outside)
    (h : e.Legacy → inUse s.dev.inflight = ∅) : OneAtATime s e := by
  cases e with
  | «open» | submit | pollCq => exact absurd he id
  | irq | setEventfd | resetStats => exact fun hsome => absurd hsome (by simp [payloadOf])
  | factorial | dmaTest | arm | wake | timeout | dmaWrite => exact fun _ => h trivial

theorem inflight_of_outside {s : Sys} {e : Event} (he : e.Outside)
    (h : inUse s.dev.inflight = ∅) : (step s e).dev.inflight = s.dev.inflight := by
  generalize hs' : step s e = s'
  have heff : Effect s e s' := hs' ▸ step_effect s e
  cases heff with
  | reset | claim | take => exact absurd he id
  | post stat fact i _ hfirst =>
    exact absurd ((inUse_eq_empty _).mp h i) (firstInflight_some.mp hfirst).1
  | resetStats => rfl
  | payload _ _ _ _ hsame _ _ | quiet _ _ _ hsame _ _ => exact hsame.inflight

namespace DepthInv

variable {u : Proc}

theorem opened (d : EduDev) : DepthInv (.opened d) where
  handle := .opened d
  serial := .start d
  refused := rfl
  accepted := rfl
  entering := by simp [Proc.opened]

theorem call (h : DepthInv u) (zc : Bool) {req : EduSubmitReq} (hop : ValidOpcode req)
    (hnone : inUse u.sys.dev.inflight = ∅) : DepthInv (u.callStep zc req) := by
  have hhandle := h.handle.call zc req
  unfold Proc.callStep at hhandle ⊢
  split_ifs at hhandle ⊢
  · -- The early store hits no command, because none is in flight.
    have hserial : Serial (u.write req).sys := h.serial.same {} (Serial.intact_of_none hnone)
    refine ⟨hhandle, hserial, h.refused, h.accepted, ?_⟩
    rintro _ ⟨⟩
    exact ⟨hop, hnone⟩
  · exact ⟨hhandle, h.serial, h.refused, h.accepted, h.entering⟩
  · refine ⟨hhandle, h.serial, h.refused, h.accepted, ?_⟩
    rintro _ ⟨⟩
    exact ⟨hop, hnone⟩
  · exact h

theorem enter (h : DepthInv u) : DepthInv u.enterStep := by
  have hhandle := h.handle.enter
  obtain heq | ⟨req, hpc, hcase⟩ := enter_cases u
  · rw [heq]; exact h
  obtain ⟨hop, hnone⟩ := h.entering req hpc
  obtain ⟨-, heq⟩ | ⟨-, -, heq⟩ | ⟨-, hbad, -⟩ := hcase
  · rw [heq] at hhandle ⊢
    exact ⟨hhandle, ⟨h.serial.intact, h.serial.count, h.serial.owner, h.serial.entries⟩, h.refused,
      h.accepted, nofun⟩
  · rw [heq] at hhandle ⊢
    refine ⟨hhandle, h.serial.claim 0 hop hnone, h.refused, ?_, nofun⟩
    simp only [Sys.claim, List.map_append, List.map_singleton, h.accepted]
  · exact absurd hop hbad

theorem leave (h : DepthInv u) : DepthInv u.leaveStep := by
  have hhandle := h.handle.leave
  unfold Proc.leaveStep at hhandle ⊢
  split at hhandle
  · exact ⟨hhandle, h.serial, h.refused, h.accepted, nofun⟩
  · exact h

theorem poll (h : DepthInv u) : DepthInv u.pollStep := by
  have hhandle := h.handle.poll
  obtain ⟨-, heq⟩ | ⟨-, heq⟩ := poll_cases u <;> rw [heq] at hhandle ⊢
  · exact h
  · exact ⟨hhandle, ⟨h.serial.intact, h.serial.count, h.serial.owner, h.serial.entries⟩, h.refused,
      h.accepted, h.entering⟩

theorem kernel (h : DepthInv u) {e : Event} (he : e.Legacy → inUse u.sys.dev.inflight = ∅) :
    DepthInv (procStep u (.kernel e)) := by
  have hhandle := h.handle.step (.kernel e)
  simp only [procStep] at hhandle ⊢
  split_ifs at hhandle ⊢ with hout
  · refine ⟨hhandle, h.serial.step h.handle.owner (oneAtATime_of_outside hout he), h.refused, ?_, ?_⟩
    · rw [claimed_of_outside hout]
      exact h.accepted
    · intro req hpc
      obtain ⟨hop, hnone⟩ := h.entering req hpc
      exact ⟨hop, by rw [inflight_of_outside hout hnone]; exact hnone⟩
  · exact h

theorem step (h : DepthInv u) {e : ProcEvent} (he : DepthOne u e) : DepthInv (procStep u e) := by
  cases e with
  | call zc req => exact h.call zc he.1 he.2
  | enter => exact h.enter
  | leave => exact h.leave
  | poll => exact h.poll
  | mapRings | unmapRings =>
    have hhandle := h.handle
    simp only [procStep]
    split_ifs
    · exact ⟨⟨hhandle.owner, hhandle.claimed, hhandle.tail, hhandle.returned⟩, h.serial, h.refused,
        h.accepted, h.entering⟩
    · exact h
  | kernel e => exact h.kernel he

theorem inOrder (h : DepthInv u) : InOrder u where
  inOrder := by
    rw [h.handle.returned, ← h.accepted, ← h.serial.reports]
    exact (List.take_prefix _ _).map _
  posted_le := by
    rw [← h.accepted, List.length_map]
    exact h.serial.posted_le
  once := h.serial.nums
  tail := by
    intro hpc
    have htail := h.handle.tail
    rw [hpc] at htail
    rw [h.handle.owner.ring.sqTail, h.handle.claimed, h.refused, Nat.add_zero, ← htail]
    rfl

end DepthInv

/-- **One command at a time comes back in order**, over any number of rounds. -/
theorem depth_one_in_order (d : EduDev) (evs : List ProcEvent)
    (h : Along procStep DepthOne (.opened d) evs) : Always procStep InOrder (.opened d) evs := by
  have hinv : Always procStep DepthInv (.opened d) evs :=
    Always.of_step (fun _ _ hu he => hu.step he) (DepthInv.opened d) h
  exact hinv.mono fun _ hu => hu.inOrder

/-- Two rounds, the second poll of them late. -/
theorem depth_one_two_rounds :
    let evs : List ProcEvent :=
      [.mapRings, .call true ⟨7, eduOpFactorial, 5⟩, .enter, .leave, .kernel (.irq 1 120),
        .call false ⟨8, eduOpDmaTest, 0⟩, .enter, .poll, .leave, .kernel (.irq 0x100 120), .poll]
    Along procStep DepthOne (.opened freshDev) evs ∧
      Always procStep InOrder (.opened freshDev) evs ∧
      (run procStep (.opened freshDev) evs).returned = [⟨7, 0, 120⟩, ⟨8, 0, 0⟩] := by
  intro evs
  have hdepth : Along procStep DepthOne (.opened freshDev) evs :=
    ⟨trivial, ⟨by decide, by decide⟩, trivial, trivial, nofun, ⟨by decide, by decide⟩, trivial,
      trivial, trivial, nofun, trivial, trivial⟩
  exact ⟨hdepth, depth_one_in_order freshDev evs hdepth, by decide⟩

end PcieDriver.Edu
