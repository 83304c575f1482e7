import PcieDriver.Edu.Errand

/-!
# The job of a legacy ioctl

It is kicked, the device finishes it, the handler acknowledges it, and then the handler completes
`irq_done`. With the rings empty nothing else happens to it. What the waiting ioctl can see of all
that is in a few fields and in the first bytes of the slab.
-/

open Base

namespace PcieDriver.Edu

/-- What goes on beside a program that calls the legacy ioctls. The device may also write into the
buffer of a DMA test. -/
def BoardEvent.Ambient : BoardEvent → Prop
  | .driver (.dmaWrite _) => True
  | e => e.Background

def legacyJob (kicks : Nat) (w : Work) : Job := ⟨kicks, .legacy, w⟩

def writeBack (slab : Mem) : BoardEvent → Mem
  | .driver (.dmaWrite bs) => setPayload slab bs
  | _ => slab

/-! ## States -/

/-- The rings are empty, and the device and the handler have exactly this to do. -/
structure Board.Stage (b : Board) (kicks : Nat) (running finished : List Job) (stat : BitVec 32)
    (handler : Option (BitVec 32 × List Job)) : Prop where
  inflight : inUse b.sys.dev.inflight = ∅
  unkicked : b.unkicked = []
  kicks : b.kicks = kicks
  running : b.running = running
  finished : b.finished = finished
  irqStat : b.irqStat = stat
  handler : b.handler = handler

/-- Nothing is under way. -/
def Board.Calm (b : Board) (kicks : Nat) : Prop := b.Stage kicks [] [] 0 none

/-- `REG_FACT` holds the result, if the work has one. -/
def Board.Computed (factorial : BitVec 32 → BitVec 32) (w : Work) (b : Board) : Prop :=
  ∀ n, w = .factorial n → b.regFact = factorial n

/-- How far the job of a legacy ioctl has come, by what it still waits for. -/
inductive Serving (factorial : BitVec 32 → BitVec 32) (j : Job) : List BoardEvent → Board → Prop
  | running {b : Board} (hstage : b.Stage (j.serial + 1) [j] [] 0 none) :
      Serving factorial j (errand j) b
  | finished {b : Board} (hstage : b.Stage (j.serial + 1) [] [j] j.work.irqBit none)
      (hfact : b.Computed factorial j.work) : Serving factorial j [.irqEnter, .irqPost] b
  | handled {b : Board} (js : List Job)
      (hstage : b.Stage (j.serial + 1) [] [] 0 (some (j.work.irqBit, js)))
      (hfact : b.Computed factorial j.work) : Serving factorial j [.irqPost] b
  | ended {b : Board} (hcalm : b.Calm (j.serial + 1)) (hfact : b.Computed factorial j.work) :
      Serving factorial j [] b

/-- What `es` change for the legacy ioctl under way. `landed` says that the handler has ended its run
for a job that raised `stat`. -/
structure Elapsed (stat : BitVec 32) (landed : Prop) (es : List BoardEvent) (s s' : Sys) : Prop where
  pc : s'.pc = s.pc
  done : s'.dev.irqDone = true ↔ s.dev.irqDone = true ∨ landed
  irq : landed → s'.dev.lastIrq = stat
  same : ¬ landed → s'.dev.lastIrq = s.dev.lastIrq
  factIn : s'.dev.lastFactIn = s.dev.lastFactIn
  factOut : s'.dev.lastFactOut = s.dev.lastFactOut
  dmaOk : s'.dev.dmaOk = s.dev.dmaOk
  fault : s'.dev.injectFault = s.dev.injectFault
  payload : ∀ a < eduDmaTestLen, s'.dev.slab a = run writeBack s.dev.slab es a

/-! ### Payloads -/

theorem setPayload_agree {slab slab' : Mem} (h : ∀ a < eduDmaTestLen, slab a = slab' a)
    (bs : List Byte) : ∀ a < eduDmaTestLen, setPayload slab bs a = setPayload slab' bs a := by
  intro a ha
  simp only [setPayload, Mem.put]
  rw [h a ha]

theorem writeBack_agree {slab slab' : Mem} (h : ∀ a < eduDmaTestLen, slab a = slab' a)
    (es : List BoardEvent) : ∀ a < eduDmaTestLen, run writeBack slab es a = run writeBack slab' es a := by
  induction es generalizing slab slab' with
  | nil => exact h
  | cons e es ih =>
    refine ih ?_
    unfold writeBack
    split
    · exact setPayload_agree h _
    · exact h

namespace Elapsed

variable {stat : BitVec 32} {landed landed' : Prop} {es es' : List BoardEvent} {s s' s'' : Sys}

theorem refl (s : Sys) : Elapsed stat False [] s s :=
  ⟨rfl, by simp, nofun, fun _ => rfl, rfl, rfl, rfl, rfl, fun _ _ => rfl⟩

theorem trans (h : Elapsed stat landed es s s') (h' : Elapsed stat landed' es' s' s'') :
    Elapsed stat (landed ∨ landed') (es ++ es') s s'' where
  pc := h'.pc.trans h.pc
  done := by rw [h'.done, h.done, or_assoc]
  irq := by
    intro hlanded
    by_cases hlanded' : landed'
    · exact h'.irq hlanded'
    · rw [h'.same hlanded', h.irq (hlanded.resolve_right hlanded')]
  same := by
    intro hnone
    rw [not_or] at hnone
    rw [h'.same hnone.2, h.same hnone.1]
  factIn := h'.factIn.trans h.factIn
  factOut := h'.factOut.trans h.factOut
  dmaOk := h'.dmaOk.trans h.dmaOk
  fault := h'.fault.trans h.fault
  payload := by
    intro a ha
    rw [h'.payload a ha, run_append]
    exact writeBack_agree h.payload es' a ha

theorem congr (h : Elapsed stat landed es s s') (hiff : landed ↔ landed') :
    Elapsed stat landed' es s s' := propext hiff ▸ h

end Elapsed

/-! ## Events -/

section
variable {factorial : BitVec 32 → BitVec 32} {b : Board} {j : Job} {todo : List BoardEvent}
  {stat : BitVec 32}

theorem elapsed_none {e : BoardEvent} {s : Sys} (he : ∀ slab, writeBack slab e = slab) :
    Elapsed stat False [e] s s :=
  ⟨rfl, by simp, nofun, fun _ => rfl, rfl, rfl, rfl, rfl,
    fun _ _ => by rw [run_cons, run_nil, he]⟩

theorem ambient_driver (factorial : BitVec 32 → BitVec 32) (stat : BitVec 32) (b : Board) {e : Event}
    (he : BoardEvent.Ambient (.driver e)) : ∃ s' : Sys,
    boardStep factorial b (.driver e) = { b with sys := s' } ∧
      s'.dev.inflight = b.sys.dev.inflight ∧ Elapsed stat False [.driver e] b.sys s' := by
  cases e with
  | dmaWrite bs =>
    exact ⟨_, rfl, rfl, rfl, (iff_of_eq (or_false _)).symm, nofun, fun _ => rfl, rfl, rfl, rfl, rfl,
      fun _ _ => rfl⟩
  | setEventfd | resetStats =>
    exact ⟨_, rfl, rfl, rfl, (iff_of_eq (or_false _)).symm, nofun, fun _ => rfl, rfl, rfl, rfl, rfl,
      fun _ _ => rfl⟩
  | «open» | submit | irq | pollCq | factorial | dmaTest | arm | wake | timeout => exact absurd he id

theorem Board.Stage.withSys {kicks : Nat} {running finished : List Job}
    {handler : Option (BitVec 32 × List Job)} (h : b.Stage kicks running finished stat handler)
    {s' : Sys} (hs' : s'.dev.inflight = b.sys.dev.inflight) :
    ({ b with sys := s' } : Board).Stage kicks running finished stat handler :=
  ⟨by rw [hs']; exact h.inflight, h.unkicked, h.kicks, h.running, h.finished, h.irqStat, h.handler⟩

theorem Board.Calm.event {kicks : Nat} (h : b.Calm kicks) (factorial : BitVec 32 → BitVec 32)
    (stat : BitVec 32) {e : BoardEvent} (he : e.Ambient) :
    (boardStep factorial b e).Calm kicks ∧ (boardStep factorial b e).regFact = b.regFact ∧
      Elapsed stat False [e] b.sys (boardStep factorial b e).sys := by
  have hstay (hboard : boardStep factorial b e = b) (hslab : ∀ slab, writeBack slab e = slab) :
      (boardStep factorial b e).Calm kicks ∧ (boardStep factorial b e).regFact = b.regFact ∧
        Elapsed stat False [e] b.sys (boardStep factorial b e).sys := by
    rw [hboard]
    exact ⟨h, rfl, elapsed_none hslab⟩
  cases e with
  | driver e =>
    obtain ⟨s', hboard, hinflight, helapsed⟩ := ambient_driver factorial _ b he
    rw [hboard]
    exact ⟨h.withSys hinflight, rfl, helapsed⟩
  | kick c => exact hstay (kick_idle (by simp [h.unkicked])) fun _ => rfl
  | finish j => exact hstay (finish_idle (by simp [h.running])) fun _ => rfl
  | irqEnter => exact hstay (enter_idle (.inl h.irqStat)) fun _ => rfl
  | irqPost => exact hstay (post_idle h.handler) fun _ => rfl

theorem Board.Calm.events {kicks : Nat} (h : b.Calm kicks) (factorial : BitVec 32 → BitVec 32)
    (stat : BitVec 32) {es : List BoardEvent} (hes : ∀ e ∈ es, e.Ambient) :
    (run (boardStep factorial) b es).Calm kicks ∧
      Elapsed stat False es b.sys (run (boardStep factorial) b es).sys := by
  induction es generalizing b with
  | nil => exact ⟨h, .refl b.sys⟩
  | cons e es ih =>
    rw [List.forall_mem_cons] at hes
    obtain ⟨hcalm, -, helapsed⟩ := h.event factorial stat hes.1
    obtain ⟨hend, hrest⟩ := ih hcalm hes.2
    exact ⟨hend, (helapsed.trans hrest).congr (or_self_iff)⟩

/-! ### The job -/

theorem serving_finish (hstage : b.Stage (j.serial + 1) [j] [] 0 none) :
    Serving factorial j [.irqEnter, .irqPost] (boardStep factorial b (.finish j)) := by
  have hmem : j ∈ b.running := by rw [hstage.running]; exact List.mem_singleton.mpr rfl
  have hboard : boardStep factorial b (.finish j) =
      { b.finish factorial j with sys := b.sys } := by
    simp only [boardStep, Board.deviceStep, if_pos hmem]
    rfl
  rw [hboard]
  cases hwork : j.work with
  | factorial n =>
    simp only [Board.finish, hwork]
    refine .finished ⟨hstage.inflight, hstage.unkicked, hstage.kicks, ?_, ?_, ?_, hstage.handler⟩ ?_
    · simp [hstage.running]
    · simp [hstage.finished]
    · simp [hstage.irqStat, hwork]
    · rintro m hm
      rw [hwork] at hm
      cases hm
      rfl
  | dma =>
    simp only [Board.finish, hwork]
    refine .finished ⟨hstage.inflight, hstage.unkicked, hstage.kicks, ?_, ?_, ?_, hstage.handler⟩ ?_
    · simp [hstage.running]
    · simp [hstage.finished]
    · simp [hstage.irqStat, hwork]
    · intro n hn
      rw [hwork] at hn
      cases hn

theorem serving_enter (hstage : b.Stage (j.serial + 1) [] [j] j.work.irqBit none)
    (hfact : b.Computed factorial j.work) :
    Serving factorial j [.irqPost] (boardStep factorial b .irqEnter) := by
  have hstat : b.irqStat ≠ 0 := by rw [hstage.irqStat]; exact irqBit_ne_zero j.work
  have hboard : boardStep factorial b .irqEnter = { b.enterStep with sys := b.sys } := rfl
  rw [hboard, Board.enterStep, if_pos ⟨hstage.handler, hstat⟩]
  refine .handled b.finished ⟨hstage.inflight, hstage.unkicked, hstage.kicks, hstage.running, rfl, ?_,
    ?_⟩ hfact
  · exact (show b.irqStat &&& ~~~b.irqStat = 0 by simp)
  · exact congrArg (fun stat => some (stat, b.finished)) hstage.irqStat

theorem serving_post {js : List Job}
    (hstage : b.Stage (j.serial + 1) [] [] 0 (some (j.work.irqBit, js)))
    (hfact : b.Computed factorial j.work) :
    Serving factorial j [] (boardStep factorial b .irqPost) ∧
      Elapsed j.work.irqBit True [.irqPost] b.sys (boardStep factorial b .irqPost).sys := by
  have hsys : b.driverStep .irqPost = { b.sys with dev := acknowledged b.sys.dev j.work.irqBit } :=
    driverStep_idle hstage.handler (irqBit_ne_zero j.work) (firstInflight_none.mpr hstage.inflight)
  have hboard : boardStep factorial b .irqPost = { b.postStep with sys := b.driverStep .irqPost } := rfl
  rw [hboard, hsys, Board.postStep, hstage.handler]
  refine ⟨.ended ⟨hstage.inflight, hstage.unkicked, hstage.kicks, hstage.running, hstage.finished,
    hstage.irqStat, rfl⟩ hfact, rfl, ?_, fun _ => rfl, fun h => absurd trivial h, rfl, rfl, rfl, rfl,
    fun _ _ => rfl⟩
  simp [acknowledged]

theorem Serving.withSys (h : Serving factorial j todo b) {s' : Sys}
    (hs' : s'.dev.inflight = b.sys.dev.inflight) :
    Serving factorial j todo { b with sys := s' } := by
  cases h with
  | running hstage => exact .running (hstage.withSys hs')
  | finished hstage hfact => exact .finished (hstage.withSys hs') hfact
  | handled js hstage hfact => exact .handled js (hstage.withSys hs') hfact
  | ended hcalm hfact => exact .ended (hcalm.withSys hs') hfact

/-- The handler has just ended its run for the job. -/
def Lands (todo : List BoardEvent) (es : List BoardEvent) : Prop :=
  todo ≠ [] ∧ run advance todo es = []

/-- What every event keeps, and what it changes. -/
def Serving.Moves (factorial : BitVec 32 → BitVec 32) (j : Job) (todo es : List BoardEvent)
    (b b' : Board) : Prop :=
  Serving factorial j (run advance todo es) b' ∧
    Elapsed j.work.irqBit (Lands todo es) es b.sys b'.sys

theorem Serving.suffix (h : Serving factorial j todo b) : todo <:+ errand j := by
  cases h with
  | running => exact List.suffix_rfl
  | finished => exact ⟨[.finish j], rfl⟩
  | handled => exact ⟨[.finish j, .irqEnter], rfl⟩
  | ended => exact List.nil_suffix

theorem Serving.waits_for (h : Serving factorial j todo b) {e : BoardEvent} (he : e ∉ errand j) :
    todo.head? ≠ some e :=
  fun hhead => he (h.suffix.subset (List.mem_of_mem_head? hhead))

theorem Serving.stay (h : Serving factorial j todo b) {e : BoardEvent}
    (hboard : boardStep factorial b e = b) (hslab : ∀ slab, writeBack slab e = slab)
    (hhead : todo.head? ≠ some e) : Moves factorial j todo [e] b (boardStep factorial b e) := by
  have htodo : run advance todo [e] = todo := advance_of_ne hhead
  rw [hboard]
  refine ⟨htodo.symm ▸ h, (elapsed_none hslab).congr ⟨False.elim, fun hlands => ?_⟩⟩
  exact hlands.1 (htodo.symm.trans hlands.2)

/-- **Each event brings the job on if it waits for it.** -/
theorem Serving.event (h : Serving factorial j todo b) {e : BoardEvent} (he : e.Ambient) :
    Moves factorial j todo [e] b (boardStep factorial b e) := by
  have hstay (hboard : boardStep factorial b e = b) (hslab : ∀ slab, writeBack slab e = slab)
      (hhead : todo.head? ≠ some e) := h.stay hboard hslab hhead
  cases e with
  | driver e =>
    obtain ⟨s', hboard, hinflight, helapsed⟩ := ambient_driver factorial _ b he
    have htodo : run advance todo [.driver e] = todo := advance_of_ne (h.waits_for (by simp [errand]))
    rw [hboard]
    refine ⟨htodo.symm ▸ h.withSys hinflight, helapsed.congr ⟨False.elim, fun hlands => ?_⟩⟩
    exact hlands.1 (htodo.symm.trans hlands.2)
  | kick c =>
    refine hstay (kick_idle ?_) (fun _ => rfl) (h.waits_for (by simp [errand]))
    cases h with
    | running hstage | finished hstage | handled _ hstage | ended hstage => simp [hstage.unkicked]
  | finish i =>
    cases h with
    | running hstage =>
      by_cases hi : i = j
      · subst hi
        have hnext : run advance (errand i) [.finish i] = [.irqEnter, .irqPost] := if_pos rfl
        refine ⟨hnext.symm ▸ serving_finish hstage, ?_⟩
        have hsys : (boardStep factorial b (.finish i)).sys = b.sys := rfl
        rw [hsys]
        refine (elapsed_none fun _ => rfl).congr ⟨False.elim, ?_⟩
        rintro ⟨-, hend⟩
        rw [hnext] at hend
        cases hend
      · exact hstay (finish_idle (by simpa [hstage.running] using hi)) (fun _ => rfl)
          (by simpa [errand] using Ne.symm hi)
    | finished hstage | handled _ hstage | ended hstage =>
      exact hstay (finish_idle (by simp [hstage.running])) (fun _ => rfl) (by simp)
  | irqEnter =>
    cases h with
    | finished hstage hfact =>
      have hnext : run advance [.irqEnter, .irqPost] [.irqEnter] = [BoardEvent.irqPost] := by
        rw [run_cons, advance, if_pos rfl, run_nil]
      refine ⟨hnext.symm ▸ serving_enter hstage hfact, ?_⟩
      have hsys : (boardStep factorial b .irqEnter).sys = b.sys := rfl
      rw [hsys]
      refine (elapsed_none fun _ => rfl).congr ⟨False.elim, ?_⟩
      rintro ⟨-, hend⟩
      rw [hnext] at hend
      cases hend
    | running hstage | handled _ hstage | ended hstage =>
      exact hstay (enter_idle (.inl hstage.irqStat)) (fun _ => rfl) (by simp [errand])
  | irqPost =>
    cases h with
    | handled js hstage hfact =>
      obtain ⟨hserving, helapsed⟩ := serving_post hstage hfact
      exact ⟨hserving, helapsed.congr (iff_of_true trivial ⟨List.cons_ne_nil _ _, rfl⟩)⟩
    | running hstage | finished hstage | ended hstage =>
      exact hstay (post_idle hstage.handler) (fun _ => rfl) (by simp [errand])

theorem run_advance_nil (es : List BoardEvent) : run advance [] es = [] :=
  (run_advance_iff [] es).mpr (List.nil_sublist es)

theorem lands_append (todo es es' : List BoardEvent) :
    Lands todo es ∨ Lands (run advance todo es) es' ↔ Lands todo (es ++ es') := by
  unfold Lands
  rw [run_append]
  constructor
  · rintro (⟨htodo, hmid⟩ | ⟨hmid, hend⟩)
    · exact ⟨htodo, by rw [hmid, run_advance_nil]⟩
    · refine ⟨?_, hend⟩
      rintro rfl
      exact hmid (run_advance_nil es)
  · rintro ⟨htodo, hend⟩
    by_cases hmid : run advance todo es = []
    · exact .inl ⟨htodo, hmid⟩
    · exact .inr ⟨hmid, hend⟩

theorem Serving.events (h : Serving factorial j todo b) {es : List BoardEvent}
    (hes : ∀ e ∈ es, e.Ambient) : Moves factorial j todo es b (run (boardStep factorial) b es) := by
  induction es generalizing b todo with
  | nil => exact ⟨h, (Elapsed.refl b.sys).congr ⟨False.elim, fun hlands => hlands.1 hlands.2⟩⟩
  | cons e es ih =>
    rw [List.forall_mem_cons] at hes
    obtain ⟨hnext, helapsed⟩ := h.event hes.1
    obtain ⟨hend, hrest⟩ := ih hnext hes.2
    exact ⟨hend, (helapsed.trans hrest).congr (lands_append todo [e] es)⟩

end

end PcieDriver.Edu
