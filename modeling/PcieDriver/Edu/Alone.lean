import PcieDriver.Edu.Board

/-!
# One command on the device

A submit comes only when nothing is under way, and an open or a piece of a legacy ioctl only when
no slot is in flight. What the device does then is for the one command in flight.
-/

open Base

namespace PcieDriver.Edu

/-- No slot is in flight, and the device has nothing to do and nothing to report. -/
structure Board.Rests (b : Board) : Prop where
  inflight : inUse b.sys.dev.inflight = ∅
  running : b.running = []
  finished : b.finished = []
  irqStat : b.irqStat = 0
  handler : b.handler = none

def Board.AloneEvent (b : Board) : Event → Prop
  | .submit _ req => ValidOpcode req ∧ b.Rests
  | .open _ | .factorial _ | .dmaTest | .wake _ | .dmaWrite _ => inUse b.sys.dev.inflight = ∅
  | .irq _ _ | .pollCq _ | .arm | .timeout | .setEventfd _ | .resetStats => True

/-- The kick, the device and the handler may take their steps at any time. -/
def Alone (b : Board) : BoardEvent → Prop
  | .driver e => b.AloneEvent e
  | _ => True

/-! ## The invariant -/

def Board.Quiet (b : Board) : Prop := inUse b.sys.dev.inflight = ∅ ∧ b.unkicked = []

/-- Command `c` is the only one in flight, and all that is under way is for it. -/
structure Board.Serves (b : Board) (c : Cmd) : Prop where
  slot : ∃ i, b.sys.Holds i c ∧ ∀ k, b.sys.dev.inflight k ≠ 0 → k = i
  pending : b.unkicked = [] ∨
    b.unkicked = [c] ∧ b.running = [] ∧ b.irqStat = 0 ∧ b.handler = none
  running : ∀ j ∈ b.running, j.source = .ring c
  finished : b.irqStat ≠ 0 → ∃ j ∈ b.finished, j.source = .ring c
  handled : ∀ stat js, b.handler = some (stat, js) → ∃ j ∈ js, j.source = .ring c
  fact : c.req.opcode = eduOpFactorial → b.irqStat ≠ 0 ∨ b.handler ≠ none →
    ∃ j, b.factBy = some j ∧ j.source = .ring c

def AloneInv (b : Board) : Prop := b.Quiet ∨ ∃ c, b.Serves c

theorem AloneInv.powered (d : EduDev) (fact : BitVec 32) : AloneInv (.powered d fact) :=
  .inl ⟨inUse_open d, rfl⟩

/-! ## The driver's part -/

/-- The event neither claims nor frees a slot. -/
def Event.Passive : Event → Prop
  | .open _ | .submit _ _ | .irq _ _ => False
  | _ => True

structure SameSlots (s s' : Sys) : Prop where
  inflight : s'.dev.inflight = s.dev.inflight
  claimed : s'.claimed = s.claimed
  owner : s'.owner = s.owner

theorem sameSlots_of_passive {s : Sys} {e : Event} (he : e.Passive) : SameSlots s (step s e) := by
  generalize hs' : step s e = s'
  have heff : Effect s e s' := hs' ▸ step_effect s e
  cases heff with
  | reset | claim | post => exact absurd he id
  | take | resetStats => exact ⟨rfl, rfl, rfl⟩
  | payload _ _ _ _ hsame _ _ | quiet _ _ _ hsame _ _ =>
    exact ⟨hsame.inflight, hsame.claimed, hsame.owner⟩

theorem none_inflight_step {s : Sys} {e : Event} (h : inUse s.dev.inflight = ∅)
    (he : ∀ client req, e ≠ .submit client req) : inUse (step s e).dev.inflight = ∅ := by
  generalize hs' : step s e = s'
  have heff : Effect s e s' := hs' ▸ step_effect s e
  cases heff with
  | reset => exact inUse_open s.dev
  | claim client req => exact absurd rfl (he client req)
  | post _ _ i _ hfirst =>
    rw [firstInflight_none.mpr h] at hfirst
    cases hfirst
  | take | resetStats => exact h
  | payload _ _ _ _ hsame _ _ | quiet _ _ _ hsame _ _ => rw [hsame.inflight]; exact h

/-! ## Register writes -/

section
variable {factorial : BitVec 32 → BitVec 32} {b : Board}

theorem write_unkicked (src : Source) (w : MmioWrite) : (b.write src w).unkicked = b.unkicked := by
  unfold Board.write
  split
  · split_ifs <;> rfl
  · rfl

theorem writes_unkicked (src : Source) (ws : List MmioWrite) :
    (b.writes src ws).unkicked = b.unkicked := by
  unfold Board.writes
  induction ws generalizing b with
  | nil => rfl
  | cons w ws ih => rw [List.foldl_cons, ih, write_unkicked]

theorem legacyStep_unkicked (there : Bool) (ws : List MmioWrite) :
    (b.legacyStep there ws).unkicked = b.unkicked := by
  unfold Board.legacyStep
  split_ifs
  · exact writes_unkicked .legacy ws
  · rfl

theorem kernelStep_unkicked {e : Event} (he : ∀ client req, e ≠ .submit client req) :
    (b.kernelStep e).unkicked = b.unkicked := by
  cases e with
  | submit client req => exact absurd rfl (he client req)
  | factorial | dmaTest | wake => exact legacyStep_unkicked _ _
  | «open» | irq | pollCq | arm | timeout | dmaWrite | setEventfd | resetStats => rfl

theorem enterStep_unkicked : b.enterStep.unkicked = b.unkicked := by
  unfold Board.enterStep
  split_ifs
  · exact writes_unkicked .legacy _
  · rfl

theorem postStep_unkicked : b.postStep.unkicked = b.unkicked := by
  unfold Board.postStep
  split <;> rfl

/-! ## Steps while no slot is in flight -/

theorem none_inflight_seen {e : BoardEvent} (h : inUse b.sys.dev.inflight = ∅)
    (he : ∀ client req, e ≠ .driver (.submit client req)) :
    inUse (b.driverStep e).dev.inflight = ∅ := by
  refine driverStep_ind (P := fun s => inUse s.dev.inflight = ∅) h fun e' hseen => ?_
  refine none_inflight_step h fun client req heq => ?_
  subst heq
  exact he client req (seen_driver hseen (by simp) (by simp))

namespace Board.Quiet

theorem driver (h : b.Quiet) {e : Event} (he : ∀ client req, e ≠ .submit client req) :
    (boardStep factorial b (.driver e)).Quiet := by
  refine ⟨none_inflight_seen h.1 fun client req heq => ?_, (kernelStep_unkicked he).trans h.2⟩
  exact he client req (BoardEvent.driver.inj heq)

theorem device (h : b.Quiet) {e : BoardEvent} (he : ∀ e', e ≠ .driver e') :
    (boardStep factorial b e).Quiet := by
  refine ⟨none_inflight_seen h.1 fun client req => he _, ?_⟩
  · cases e with
    | driver e => exact absurd rfl (he e)
    | kick c =>
      have hstay : b.kickStep c = b := if_neg (by simp [h.2])
      exact (congrArg Board.unkicked hstay).trans h.2
    | finish j =>
      simp only [boardStep, Board.deviceStep]
      split_ifs
      · exact (finish_ends factorial b j).unkicked.trans h.2
      · exact h.2
    | irqEnter => exact enterStep_unkicked.trans h.2
    | irqPost => exact postStep_unkicked.trans h.2

theorem submit (h : b.Quiet) (hrests : b.Rests) (client : Nat) {req : EduSubmitReq}
    (hop : ValidOpcode req) : AloneInv (boardStep factorial b (.driver (.submit client req))) := by
  have hboard : boardStep factorial b (.driver (.submit client req)) =
      { b.submitStep client req with sys := step b.sys (.submit client req) } := rfl
  rw [hboard]
  cases hfull : ringFull b.sys.dev.sqTail b.sys.dev.cqHead with
  | true =>
    rw [step_submit_full hfull, Board.submitStep, if_neg (by simp [submit_full hfull])]
    exact .inl h
  | false =>
    rw [step_submit_claims hfull, Board.submitStep, if_pos (submit_accepts hfull hop), h.2]
    refine .inr ⟨⟨b.sys.calls, client, req⟩, ?_, ?_, ?_, ?_, ?_, ?_⟩
    · refine ⟨slotOf b.sys.dev.sqTail, ⟨?_, ?_⟩, fun k hk => ?_⟩
      · rw [OwnerInv.claim_slot.1]
        exact hop.ne_zero
      · rw [OwnerInv.claim_slot.2]
        simp [Sys.claim]
      · by_contra hne
        rw [(OwnerInv.claim_other hne).1] at hk
        exact hk ((inUse_eq_empty _).mp h.1 k)
    · exact .inr ⟨rfl, hrests.running, hrests.irqStat, hrests.handler⟩
    · simp [hrests.running]
    · exact fun hstat => absurd hrests.irqStat hstat
    · simp [hrests.handler]
    · rintro - (hstat | hhandler)
      · exact absurd hrests.irqStat hstat
      · exact absurd hrests.handler hhandler

end Board.Quiet

/-! ## Steps while a command is in flight -/

theorem sameSlots_seen {e : BoardEvent} (he : ∀ e', b.seen e = some e' → e'.Passive) :
    SameSlots b.sys (b.driverStep e) :=
  driverStep_ind ⟨rfl, rfl, rfl⟩ fun e' hseen => sameSlots_of_passive (he e' hseen)

namespace Board.Serves

variable {c : Cmd}

theorem busy (h : b.Serves c) : inUse b.sys.dev.inflight ≠ ∅ := by
  obtain ⟨i, hi, -⟩ := h.slot
  intro hnone
  exact hi.1 ((inUse_eq_empty _).mp hnone i)

theorem kicked (h : b.Serves c) (hbusy : b.running ≠ [] ∨ b.irqStat ≠ 0 ∨ b.handler ≠ none) :
    b.unkicked = [] := by
  rcases h.pending with hnone | ⟨-, hrunning, hstat, hhandler⟩
  · exact hnone
  · rcases hbusy with h' | h' | h' <;> contradiction

theorem same (h : b.Serves c) {s : Sys} (hs : SameSlots b.sys s) :
    ({ b with sys := s } : Board).Serves c := by
  obtain ⟨i, hi, honly⟩ := h.slot
  refine ⟨⟨i, ?_, ?_⟩, h.pending, h.running, h.finished, h.handled, h.fact⟩
  · simpa only [Sys.Holds, hs.inflight, hs.claimed, hs.owner] using hi
  · simpa only [hs.inflight] using honly

theorem passive (h : b.Serves c) {e : Event} (he : b.AloneEvent e) :
    (boardStep factorial b (.driver e)).Serves c := by
  cases e with
  | submit => exact absurd he.2.inflight h.busy
  | «open» | factorial | dmaTest | wake | dmaWrite => exact absurd he h.busy
  | irq => exact h
  | pollCq | arm | timeout | setEventfd | resetStats =>
    refine h.same (sameSlots_seen ?_)
    rintro _ ⟨⟩
    trivial

theorem kick (h : b.Serves c) (c' : Cmd) : (boardStep factorial b (.kick c')).Serves c := by
  have hboard : boardStep factorial b (.kick c') = { b.kickStep c' with sys := b.sys } := rfl
  rw [hboard]
  rcases kickStep_cases b c' with hstay | ⟨hmem, hbegin⟩
  · rw [hstay]
    exact h
  rcases h.pending with hnone | ⟨hpending, hrunning, hstat, hhandler⟩
  · rw [hnone] at hmem
    cases hmem
  · obtain rfl : c' = c := by simpa [hpending] using hmem
    rw [hbegin]
    refine ⟨h.slot, .inl (by simp [Board.begin, hpending]), ?_, ?_, h.handled, ?_⟩
    · simp [Board.begin, hrunning]
    · exact fun h' => absurd hstat h'
    · rintro - (h' | h')
      · exact absurd hstat h'
      · exact absurd hhandler h'

theorem finish (h : b.Serves c) (hinv : BoardInv factorial b) (j : Job) :
    (boardStep factorial b (.finish j)).Serves c := by
  simp only [boardStep, Board.deviceStep]
  split_ifs with hj
  · have hsource := h.running j hj
    have hkicked := h.kicked (.inl (List.ne_nil_of_mem hj))
    have hrunning : ∀ k ∈ b.running.erase j, k.source = .ring c :=
      fun k hk => h.running k (List.mem_of_mem_erase hk)
    unfold Board.finish
    cases hwork : j.work with
    | factorial n =>
      exact ⟨h.slot, .inl hkicked, hrunning, fun _ => ⟨j, by simp, hsource⟩, h.handled,
        fun _ _ => ⟨j, rfl, hsource⟩⟩
    | dma =>
      refine ⟨h.slot, .inl hkicked, hrunning, fun _ => ⟨j, by simp, hsource⟩, h.handled, ?_⟩
      intro hop
      have := hinv.running j hj c hsource
      simp [hwork, workOf, hop] at this
  · exact h

theorem enter (h : b.Serves c) : (boardStep factorial b .irqEnter).Serves c := by
  have hboard : boardStep factorial b .irqEnter = { b.enterStep with sys := b.sys } := rfl
  rw [hboard, Board.enterStep]
  split_ifs with hready
  · obtain ⟨hidle, hstat⟩ := hready
    have hcleared : b.irqStat &&& ~~~b.irqStat = 0 := by simp
    refine ⟨h.slot, .inl (h.kicked (.inr (.inl hstat))), h.running, ?_, ?_, ?_⟩
    · exact fun h' => absurd hcleared h'
    · rintro _ _ ⟨⟩
      exact h.finished hstat
    · exact fun hop _ => h.fact hop (.inl hstat)
  · exact h

theorem post (h : b.Serves c) (hinv : BoardInv factorial b) :
    AloneInv (boardStep factorial b .irqPost) := by
  cases hhandler : b.handler with
  | none =>
    have hdevice : b.postStep = b := by simp [Board.postStep, hhandler]
    have hsys : b.driverStep .irqPost = b.sys := by simp [Board.driverStep, Board.seen, hhandler]
    rw [boardStep, Board.deviceStep, hdevice, hsys]
    exact .inr ⟨c, h⟩
  | some handled =>
    obtain ⟨stat, js⟩ := handled
    obtain ⟨k, hfirst⟩ :=
      Option.ne_none_iff_exists'.mp fun hnone => h.busy (firstInflight_none.mp hnone)
    obtain ⟨i, -, honly⟩ := h.slot
    refine .inl ⟨?_, postStep_unkicked.trans (h.kicked (.inr (.inr (by simp [hhandler]))))⟩
    have hsys : (boardStep factorial b .irqPost).sys = b.sys.post k stat b.regFact :=
      driverStep_posts hhandler (hinv.stat stat js hhandler) hfirst
    rw [hsys, inUse_eq_empty]
    intro n
    by_contra hn
    -- The slot that was retired was the only one.
    obtain ⟨hne, hn⟩ := OwnerInv.post_other hn
    exact hne ((honly n hn).trans (honly k (firstInflight_some.mp hfirst).1).symm)

end Board.Serves

theorem AloneInv.step (h : AloneInv b) (hinv : BoardInv factorial b) {e : BoardEvent}
    (he : Alone b e) : AloneInv (boardStep factorial b e) := by
  rcases h with h | ⟨c, h⟩
  · by_cases hdriver : ∃ e', e = .driver e'
    · obtain ⟨e', rfl⟩ := hdriver
      by_cases hsubmit : ∃ client req, e' = .submit client req
      · obtain ⟨client, req, rfl⟩ := hsubmit
        exact h.submit he.2 client he.1
      · exact .inl (h.driver fun client req heq => hsubmit ⟨client, req, heq⟩)
    · exact .inl (h.device fun e' heq => hdriver ⟨e', heq⟩)
  · cases e with
    | driver e => exact .inr ⟨c, h.passive he⟩
    | kick c' => exact .inr ⟨c, h.kick c'⟩
    | finish j => exact .inr ⟨c, h.finish hinv j⟩
    | irqEnter => exact .inr ⟨c, h.enter⟩
    | irqPost => exact h.post hinv

end

end PcieDriver.Edu
