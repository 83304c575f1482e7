import PcieDriver.Edu.Blocking
import PcieDriver.Edu.Owed

/-!
# Legacy ioctls and a `complete_all` that is owed

A wait ends with the first `complete_all` after `reinit_completion`. If it is the one that the handler
owed before, the wait ends before its own interrupt. If none was owed then, the call goes as in
`Blocking`.
-/

open Base

namespace PcieDriver.Edu

/-! ## The calls -/

/-- What goes on in one wait: from the kick to `reinit_completion`, and then until the wait ends. -/
structure FineLeg where
  early : List FineEvent
  late : List FineEvent

structure FineTurn where
  call : Call
  before : List FineEvent
  first : FineLeg
  second : FineLeg

def FineEvent.Ambient (e : FineEvent) : Prop := e.Among BoardEvent.Ambient

structure FineTurn.Ambient (t : FineTurn) : Prop where
  before : ∀ e ∈ t.before, e.Ambient
  first : ∀ e ∈ t.first.early ++ t.first.late, e.Ambient
  second : ∀ e ∈ t.second.early ++ t.second.late, e.Ambient

namespace FineBoard

section
variable (factorial : BitVec 32 → BitVec 32)

/-- `edu_wait_irq`, up to the end of its wait. -/
def waitIrq (f : FineBoard) (leg : FineLeg) : FineBoard :=
  run (fineStep factorial) (fineStep factorial (run (fineStep factorial) f leg.early)
    (.driver .arm)) leg.late

/-- `edu_run_factorial`. -/
def runFactorial (f : FineBoard) (n : BitVec 32) (leg : FineLeg) :
    FineBoard × Except Errno EduFactReq :=
  let f := (fineStep factorial f (.driver (.factorial n))).waitIrq factorial leg
  match waitResult f.board.sys.dev with
  | .error err => (fineStep factorial f (.driver .timeout), .error err)
  | .ok () => (fineStep factorial f (.driver (.wake f.board.regFact)),
      .ok ⟨n, f.board.regFact, f.board.sys.dev.lastIrq⟩)

/-- `edu_run_dma_test`. -/
def runDmaTest (f : FineBoard) (first second : FineLeg) : FineBoard × Except Errno Unit :=
  let f := (fineStep factorial f (.driver .dmaTest)).waitIrq factorial first
  match waitResult f.board.sys.dev with
  | .error err => (fineStep factorial f (.driver .timeout), .error err)
  | .ok () =>
    let f := (fineStep factorial f (.driver (.wake f.board.regFact))).waitIrq factorial second
    match waitResult f.board.sys.dev with
    | .error err => (fineStep factorial f (.driver .timeout), .error err)
    | .ok () => (fineStep factorial f (.driver (.wake f.board.regFact)),
        (dmaTestFinish f.board.sys.dev).2)

/-- `edu_ioctl` for the legacy requests, where copying works. -/
def ioctl (f : FineBoard) (t : FineTurn) : FineBoard × Except Errno Response :=
  let f := run (fineStep factorial) f t.before
  match t.call with
  | .factorial n =>
    match f.runFactorial factorial n t.first with
    | (f, .ok req) => (f, .ok (.factorial req))
    | (f, .error _) => (f, .error .etimedout)
  | .dmaTest =>
    let (f, ret) := f.runDmaTest factorial t.first t.second
    (f, ret.map fun _ => .dmaTest)
  | .getState => (f, (eduIocGetState f.board.sys.dev true).map .state)

end

end FineBoard

/-! ## The calls without their waits -/

namespace FineLeg

/-- The `complete_all` for what is due comes before the wait ends, and not so early that
`reinit_completion` forgets it. -/
def Serves (leg : FineLeg) (d : Debt) : Prop :=
  ¬ (run Debt.step d leg.early).Over ∧ (run Debt.step d (leg.early ++ leg.late)).Over

instance (leg : FineLeg) (d : Debt) : Decidable (leg.Serves d) := inferInstanceAs (Decidable (_ ∧ _))

/-- What `reinit_completion` finds owed is owed for what is due. -/
def Settled (leg : FineLeg) (d : Debt) : Prop :=
  (run Debt.step d leg.early).owed = true → (run Debt.step d leg.early).todo = []

instance (leg : FineLeg) (d : Debt) : Decidable (leg.Settled d) := inferInstanceAs (Decidable (_ → _))

/-- What a wait leaves in the buffer, which was zeroed before it. -/
def back (leg : FineLeg) : List Byte :=
  (run writeBack (fun _ => 0) ((leg.early ++ leg.late).flatMap FineEvent.coarse)).get 0 eduDmaTestLen

end FineLeg

/-- How many kicks and submits there were, and whether the handler owes a `complete_all`. -/
structure Tally where
  kicks : Nat
  calls : Nat
  owed : Bool

/-- With nothing under way only `complete_all` matters. -/
def Tally.pass (y : Tally) (es : List FineEvent) : Tally :=
  { y with owed := (run Debt.step ⟨[], y.owed⟩ es).owed }

namespace FineTurn

variable (t : FineTurn) (y : Tally)

/-- What is due when the call has kicked the device. -/
def due (w : Work) : Debt :=
  ⟨fineErrand (legacyJob y.kicks w), (y.pass t.before).owed⟩

def Served : Prop :=
  match t.call with
  | .factorial n => t.first.Serves (t.due y (.factorial n))
  | .dmaTest => t.first.Serves (t.due y .dma) ∧
      t.second.Serves ⟨fineErrand (legacyJob (y.kicks + 1) .dma), false⟩
  | .getState => True

instance : (t : FineTurn) → Decidable (t.Served y)
  | ⟨.factorial _, _, _, _⟩ => inferInstanceAs (Decidable (FineLeg.Serves _ _))
  | ⟨.dmaTest, _, _, _⟩ => inferInstanceAs (Decidable (_ ∧ _))
  | ⟨.getState, _, _, _⟩ => isTrue trivial

/-- The last run of the handler before the call ends before its `reinit_completion`. -/
def Settled : Prop :=
  match t.call with
  | .factorial n => t.first.Settled (t.due y (.factorial n))
  | .dmaTest => t.first.Settled (t.due y .dma)
  | .getState => True

instance : (t : FineTurn) → Decidable (t.Settled y)
  | ⟨.factorial _, _, _, _⟩ => inferInstanceAs (Decidable (FineLeg.Settled _ _))
  | ⟨.dmaTest, _, _, _⟩ => inferInstanceAs (Decidable (FineLeg.Settled _ _))
  | ⟨.getState, _, _, _⟩ => isTrue trivial

def next : Tally :=
  match t.call with
  | .getState => y.pass t.before
  | _ => { y with kicks := y.kicks + t.call.kicks, owed := false }

end FineTurn

/-- What the call comes to, if it is served or not. -/
def Record.reply (factorial : BitVec 32 → BitVec 32) (r : Record) (served : Bool) (back : List Byte) :
    Call → Record × Except Errno Response
  | .factorial n => if served then r.computes n (factorial n) else (r, .error .etimedout)
  | .dmaTest => if served then r.tests back else (r, .error .etimedout)
  | .getState => (r, .ok (.state r.state))

/-- As after an interrupt that raised `stat`. -/
def Record.marked (r : Record) (stat : BitVec 32) : Record := { r with state.lastIrq := stat }

/-! ## The legacy calls leave the rings alone -/

/-- Neither path of the rings: no open, no submit and no poll. -/
def BoardEvent.OffRings : BoardEvent → Prop
  | .driver (.open _) | .driver (.submit _ _) | .driver (.pollCq _) => False
  | _ => True

theorem offRings_ambient {e : BoardEvent} (h : e.Ambient) : e.OffRings := by
  cases e with
  | driver e =>
    cases e with
    | «open» | submit | pollCq => exact h
    | _ => trivial
  | _ => trivial

/-- Nothing is in the rings. -/
structure Board.Empty (factorial : BitVec 32 → BitVec 32) (calls : Nat) (b : Board) : Prop where
  inv : BoardInv factorial b
  inflight : inUse b.sys.dev.inflight = ∅
  level : b.sys.claimed.length = b.sys.posted.length
  calls : b.sys.calls = calls
  queue : b.sys.queue = []

section
variable {factorial : BitVec 32 → BitVec 32} {b b' : Board} {calls kicks : Nat}

theorem Board.Ready.empty (h : b.Ready factorial kicks calls) : b.Empty factorial calls :=
  ⟨h.inv, h.rests.inflight, h.level, h.calls, h.queue⟩

theorem Board.Ready.calm (h : b.Ready factorial kicks calls) : b.Calm kicks :=
  ⟨h.rests.inflight, h.unkicked, h.kicks, h.rests.running, h.rests.finished, h.rests.irqStat,
    h.rests.handler⟩

theorem Board.Empty.ready (h : b.Empty factorial calls) (hcalm : b.Calm kicks) :
    b.Ready factorial kicks calls :=
  ⟨⟨h.inv, ⟨h.inflight, hcalm.running, hcalm.finished, hcalm.irqStat, hcalm.handler⟩,
    hcalm.unkicked, h.level, hcalm.kicks, h.calls⟩, h.queue⟩

theorem step_off_rings {s : Sys} (hinflight : inUse s.dev.inflight = ∅) {e : Event}
    (he : BoardEvent.OffRings (.driver e)) : SameRing s (step s e) ∧ (step s e).calls = s.calls := by
  have hcalls : (step s e).calls = s.calls := by
    cases e with
    | «open» | submit | pollCq => exact absurd he id
    | irq stat fact =>
      simp only [step, Sys.irqStep]
      split <;> rfl
    | factorial | dmaTest =>
      simp only [step]
      split <;> rfl
    | arm =>
      simp only [step, Sys.armStep]
      split <;> rfl
    | wake =>
      simp only [step, Sys.wakeStep]
      split_ifs
      · split <;> rfl
      · rfl
    | timeout =>
      simp only [step, Sys.timeoutStep]
      split_ifs
      · rfl
      · split <;> rfl
    | dmaWrite | setEventfd | resetStats => rfl
  refine ⟨?_, hcalls⟩
  have heffect := step_effect s e
  generalize step s e = s' at heffect
  cases heffect with
  | reset | claim | take => exact absurd he id
  | post stat fact i hstat hfirst =>
    rw [firstInflight_none.mpr hinflight] at hfirst
    cases hfirst
  | payload _ _ _ _ hsame | quiet _ _ _ hsame => exact hsame
  | resetStats => exact {}

theorem Board.Empty.event (h : b.Empty factorial calls) {e : BoardEvent} (he : e.OffRings) :
    (boardStep factorial b e).Empty factorial calls := by
  have hsame : SameRing b.sys (b.driverStep e) ∧ (b.driverStep e).calls = b.sys.calls := by
    refine driverStep_ind (P := fun s => SameRing b.sys s ∧ s.calls = b.sys.calls) ⟨{}, rfl⟩
      fun e' hseen => step_off_rings h.inflight ?_
    cases e' with
    | «open» | submit | pollCq =>
      rw [seen_driver hseen nofun nofun] at he
      exact he
    | _ => trivial
  obtain ⟨hring, hcalls⟩ := hsame
  refine ⟨h.inv.step e, ?_, ?_, hcalls.trans h.calls, hring.queue.trans h.queue⟩
  · exact (congrArg inUse hring.inflight).trans h.inflight
  · exact (congrArg List.length hring.claimed).trans (h.level.trans
      (congrArg List.length hring.posted).symm)

theorem Aside.empty (h : Aside b b') (he : b.Empty factorial calls) (hinv : BoardInv factorial b') :
    b'.Empty factorial calls where
  inv := hinv
  inflight := by rw [h.ring.inflight]; exact he.inflight
  level := by rw [h.ring.claimed, h.ring.posted]; exact he.level
  calls := h.calls.trans he.calls
  queue := h.ring.queue.trans he.queue

/-- A legacy ioctl waits for its job, with nothing in the rings. -/
structure Waiting (factorial : BitVec 32 → BitVec 32) (j : Job) (calls : Nat) (todo : List BoardEvent)
    (b : Board) : Prop where
  serving : Serving factorial j todo b
  empty : b.Empty factorial calls

theorem tracks_waiting (j : Job) (calls : Nat) :
    Tracks factorial BoardEvent.Ambient j.work.irqBit (Waiting factorial j calls) where
  raises := irqBit_ne_zero _
  step h he := ⟨(tracks_serving j).step h.serving he, h.empty.event (offRings_ambient he)⟩
  aside h hinv haside := ⟨haside.serving h.serving, haside.empty h.empty hinv⟩
  handler h := (tracks_serving j).handler h.serving
  irqStat h := (tracks_serving j).irqStat h.serving
  reports h := (tracks_serving j).reports h.serving

end

/-! ## What an event does beside that -/

/-- What the driver keeps of an event, and what it changes. -/
structure Leaves (bit : BitVec 32) (d : Debt) (e : FineEvent) (s s' : Sys) : Prop where
  pc : s'.pc = s.pc
  record : (Record.of s'.dev).marked 0 = (Record.of s.dev).marked 0
  irq : s'.dev.lastIrq = if e = .irqAck ∧ d.todo.head? = some .irqAck then bit else s.dev.lastIrq
  done : s'.dev.irqDone = (s.dev.irqDone || (e == .irqComplete && d.owed))
  payload : ∀ a < eduDmaTestLen, s'.dev.slab a = run writeBack s.dev.slab e.coarse a

section
variable {factorial : BitVec 32 → BitVec 32} {bit : BitVec 32} {d : Debt} {f : FineBoard}
  {P : List BoardEvent → Board → Prop}

theorem leaves_same {s : Sys} {e : FineEvent} (hack : ¬ (e = .irqAck ∧ d.todo.head? = some .irqAck))
    (hcomplete : (e == .irqComplete && d.owed) = false) (hslab : ∀ slab, run writeBack slab e.coarse = slab) :
    Leaves bit d e s s :=
  ⟨rfl, rfl, (if_neg hack).symm, by rw [hcomplete, Bool.or_false], fun _ _ => by rw [hslab]⟩

theorem scan_front (s : Sys) (fact : BitVec 32) :
    ∀ a < eduDmaTestLen, (s.scan fact).dev.slab a = s.dev.slab a := by
  intro a ha
  cases hfirst : firstInflight s.dev with
  | none => rw [scan_none hfirst]
  | some i =>
    rw [scan_some hfirst]
    refine Mem.put_outside _ _ _ (.inl ?_)
    simp only [eduDmaTestLen] at ha
    simp only [sqSize, ringSize]
    omega

theorem FineAt.leaves (h : FineAt factorial bit P d f) {e : FineEvent} (he : e.Ambient) :
    Leaves bit d e f.board.sys (fineStep factorial f e).board.sys := by
  cases e with
  | driver e =>
    obtain ⟨s', hboard, -, helapsed⟩ :=
      ambient_driver factorial bit f.board (he _ (List.mem_singleton.mpr rfl))
    show Leaves bit d _ _ (boardStep factorial f.board (.driver e)).sys
    rw [hboard]
    refine ⟨helapsed.pc, ?_, (helapsed.same id).trans (if_neg (by simp)).symm, ?_, helapsed.payload⟩
    · simp only [Record.of, Record.marked, helapsed.factIn, helapsed.factOut, helapsed.dmaOk,
        helapsed.fault]
    · rw [Bool.eq_iff_iff, helapsed.done]
      simp
  | kick | finish => exact leaves_same (by simp) rfl fun _ => rfl
  | irqRead =>
    have hsys : f.readStep.board.sys = f.board.sys := by
      unfold FineBoard.readStep
      split_ifs <;> rfl
    show Leaves bit d _ _ f.readStep.board.sys
    rw [hsys]
    exact leaves_same (by simp) rfl fun _ => rfl
  | irqAck =>
    have hstatus := h.status
    show Leaves bit d _ _ f.ackStep.board.sys
    by_cases hhead : d.todo.head? = some .irqAck
    · rw [if_pos hhead] at hstatus
      rw [ackStep_some hstatus]
      exact ⟨rfl, rfl, (if_pos ⟨rfl, hhead⟩).symm, (Bool.or_false _).symm, fun _ _ => rfl⟩
    · rw [if_neg hhead] at hstatus
      rw [FineBoard.ackStep, hstatus]
      exact leaves_same (fun hack => hhead hack.2) rfl fun _ => rfl
  | irqPost =>
    show Leaves bit d _ _ f.postStep.board.sys
    cases hhandler : f.board.handler with
    | none =>
      rw [FineBoard.postStep, hhandler]
      exact leaves_same (by simp) rfl fun _ => rfl
    | some run =>
      rw [postStep_some hhandler]
      have hfront := scan_front f.board.sys f.board.regFact
      cases hfirst : firstInflight f.board.sys.dev with
      | none =>
        rw [scan_none hfirst]
        exact leaves_same (by simp) rfl fun _ => rfl
      | some i =>
        rw [scan_some hfirst] at hfront ⊢
        exact ⟨rfl, rfl, (if_neg (by simp)).symm, (Bool.or_false _).symm, hfront⟩
  | irqComplete =>
    show Leaves bit d _ _ f.completeStep.board.sys
    unfold FineBoard.completeStep
    rw [h.owed]
    cases howed : d.owed with
    | false => exact leaves_same (by simp) (by rw [howed]; rfl) fun _ => rfl
    | true =>
      refine ⟨rfl, rfl, (if_neg (by simp)).symm, ?_, fun _ _ => rfl⟩
      rw [howed]
      exact (Bool.or_true _).symm

/-- What stays while the job is under way. `r` is the record but for `last_irq`. -/
structure Kept (bit : BitVec 32) (pc : LegacyPc) (r : Record) (d : Debt) (s : Sys) : Prop where
  pc : s.pc = pc
  record : (Record.of s.dev).marked 0 = r.marked 0
  irq : d.todo.length ≤ 1 → s.dev.lastIrq = bit

theorem advance_length (todo : List FineEvent) (e : FineEvent) :
    todo.length ≤ (advance todo e).length + 1 := by
  cases todo with
  | nil => exact Nat.zero_le _
  | cons next todo =>
    simp only [advance]
    split_ifs <;> simp

theorem step_length (d : Debt) (e : FineEvent) : d.todo.length ≤ (d.step e).todo.length + 1 := by
  cases e with
  | irqRead =>
    simp only [Debt.step]
    split_ifs
    · exact Nat.le_succ _
    · exact advance_length _ _
  | irqComplete => exact Nat.le_succ _
  | driver | kick | finish | irqAck | irqPost => exact advance_length _ _

theorem Remains.length_step (h : Remains d.todo) (e : FineEvent)
    (hstep : (d.step e).todo.length ≤ 1) :
    d.todo.length ≤ 1 ∨ e = .irqAck ∧ d.todo.head? = some .irqAck := by
  have hshort : d.todo.length ≤ 2 := (step_length d e).trans (Nat.succ_le_succ hstep)
  obtain ⟨todo, owed⟩ := d
  cases h with
  | kick | finish | read => exact absurd hshort (by simp [fineErrand])
  | ack =>
    by_cases he : e = .irqAck
    · exact .inr ⟨he, rfl⟩
    · have hne : advance [.irqAck, .irqPost] e = [FineEvent.irqAck, .irqPost] :=
        advance_of_ne (by simpa using Ne.symm he)
      cases owed <;> cases e <;> simp_all [Debt.step]
  | post | done => simp

theorem FineAt.kept (h : FineAt factorial bit P d f) {pc : LegacyPc} {r : Record}
    (hk : Kept bit pc r d f.board.sys) {e : FineEvent} (he : e.Ambient) :
    Kept bit pc r (d.step e) (fineStep factorial f e).board.sys := by
  have hleaves := h.leaves he
  refine ⟨hleaves.pc.trans hk.pc, hleaves.record.trans hk.record, fun hlength => ?_⟩
  rw [hleaves.irq]
  split_ifs with hack
  · rfl
  · exact hk.irq ((h.remains.length_step e hlength).resolve_right hack)

theorem FineAt.all_kept {allowed : BoardEvent → Prop} (ht : Tracks factorial allowed bit P)
    (hallowed : ∀ e, allowed e → e.Ambient) (h : FineAt factorial bit P d f) {pc : LegacyPc} {r : Record}
    (hk : Kept bit pc r d f.board.sys) {es : List FineEvent} (hes : ∀ e ∈ es, e.Among allowed) :
    Kept bit pc r (run Debt.step d es) (run (fineStep factorial) f es).board.sys ∧
      ∀ a < eduDmaTestLen, (run (fineStep factorial) f es).board.sys.dev.slab a =
        run writeBack f.board.sys.dev.slab (es.flatMap FineEvent.coarse) a := by
  induction es generalizing d f with
  | nil => exact ⟨hk, fun _ _ => rfl⟩
  | cons e es ih =>
    rw [List.forall_mem_cons] at hes
    have he : e.Ambient := fun e' he' => hallowed e' (hes.1 e' he')
    obtain ⟨hkept, hpayload⟩ := ih (ht.event h hes.1) (h.kept hk he) hes.2
    refine ⟨hkept, fun a ha => (hpayload a ha).trans ?_⟩
    rw [List.flatMap_cons, run_append]
    exact writeBack_agree (h.leaves he).payload _ a ha

/-! ### The wait -/

theorem over_step (h : d.Over) (e : FineEvent) : (d.step e).Over := by
  obtain ⟨todo, owed⟩ := d
  obtain ⟨rfl, rfl⟩ : todo = [] ∧ owed = false := h
  cases e <;> simp [Debt.step, Debt.Over, advance]

/-- If nothing is owed for an earlier run, only `complete_all` ends what is due. -/
theorem over_iff (hremains : Remains d.todo) (hown : d.owed = true → d.todo = []) (e : FineEvent) :
    (d.step e).Over ↔ d.Over ∨ e = .irqComplete ∧ d.owed = true := by
  obtain ⟨todo, owed⟩ := d
  cases owed with
  | true =>
    obtain rfl : todo = [] := hown rfl
    cases e <;> simp [Debt.step, Debt.Over, advance]
  | false =>
    cases hremains <;> cases e <;> simp [Debt.step, Debt.Over, advance, fineErrand] <;> split_ifs <;> simp

theorem own_step (hremains : Remains d.todo) (hown : d.owed = true → d.todo = []) (e : FineEvent) :
    (d.step e).owed = true → (d.step e).todo = [] := by
  obtain ⟨todo, owed⟩ := d
  cases owed with
  | true =>
    obtain rfl : todo = [] := hown rfl
    cases e <;> simp [Debt.step, advance]
  | false => cases hremains <;> cases e <;> simp [Debt.step, advance, fineErrand]

/-- A wait that has found nothing owed for an earlier run: `irq_done` is set when the run for the job
has ended. -/
theorem FineAt.completes (ht : Tracks factorial BoardEvent.Ambient bit P)
    (h : FineAt factorial bit P d f) (hown : d.owed = true → d.todo = [])
    (hdone : f.board.sys.dev.irqDone = true ↔ d.Over) {es : List FineEvent}
    (hes : ∀ e ∈ es, e.Ambient) :
    (run (fineStep factorial) f es).board.sys.dev.irqDone = true ↔ (run Debt.step d es).Over := by
  induction es generalizing d f with
  | nil => exact hdone
  | cons e es ih =>
    rw [List.forall_mem_cons] at hes
    refine ih (ht.event h hes.1) (own_step h.remains hown e) ?_ hes.2
    rw [(h.leaves hes.1).done, over_iff h.remains hown, Bool.or_eq_true, hdone, Bool.and_eq_true,
      beq_iff_eq]

/-- A wait that begins after the run for its job has nothing to wait for. -/
theorem FineAt.forgotten (ht : Tracks factorial BoardEvent.Ambient bit P)
    (h : FineAt factorial bit P d f) (hover : d.Over) (hdone : f.board.sys.dev.irqDone = false)
    {es : List FineEvent} (hes : ∀ e ∈ es, e.Ambient) :
    (run (fineStep factorial) f es).board.sys.dev.irqDone = false := by
  induction es generalizing d f with
  | nil => exact hdone
  | cons e es ih =>
    rw [List.forall_mem_cons] at hes
    refine ih (ht.event h hes.1) (over_step hover e) ?_ hes.2
    rw [(h.leaves hes.1).done, hdone, hover.2, Bool.and_false, Bool.or_false]

theorem FineAt.aside (ht : Tracks factorial BoardEvent.Ambient bit P) (h : FineAt factorial bit P d f)
    {b : Board} (hinv : BoardInv factorial b) (haside : Aside f.board b) :
    FineAt factorial bit P d { f with board := b } :=
  ⟨⟨hinv, h.inv.status⟩, ht.aside h.here hinv haside, h.remains, h.status, h.owed⟩

theorem fine_arm (factorial : BitVec 32 → BitVec 32) (hkicked : f.board.sys.pc.kicked = true) :
    fineStep factorial f (.driver .arm) = { f with
      board.sys := { f.board.sys with
        dev := reinitCompletion f.board.sys.dev
        pc := f.board.sys.pc.armed } } := by
  show { f with board := { f.board with sys := (boardStep factorial f.board (.driver .arm)).sys } } = _
  rw [arm_sys hkicked]

theorem FineAt.arm (ht : Tracks factorial BoardEvent.Ambient bit P) (h : FineAt factorial bit P d f)
    (hkicked : f.board.sys.pc.kicked = true) :
    FineAt factorial bit P d (fineStep factorial f (.driver .arm)) := by
  have hinv := h.inv.board.step (.driver .arm)
  refine h.aside ht hinv ?_
  have hboard := congrArg FineBoard.board (fine_arm factorial hkicked)
  show Aside f.board (fineStep factorial f (.driver .arm)).board
  rw [hboard]
  exact ⟨{}, rfl, rfl, rfl, rfl, rfl, rfl, rfl, rfl, rfl⟩

/-- What a wait leaves. -/
structure FineLegEnds (factorial : BitVec 32 → BitVec 32) (bit : BitVec 32)
    (P : List BoardEvent → Board → Prop) (d : Debt) (leg : FineLeg) (f f' : FineBoard) : Prop where
  ends : FineAt factorial bit P (run Debt.step d (leg.early ++ leg.late)) f'
  kept : Kept bit f.board.sys.pc.armed (Record.of f.board.sys.dev)
    (run Debt.step d (leg.early ++ leg.late)) f'.board.sys
  done : f'.board.sys.dev.irqDone = decide (leg.Serves d)
  payload : ∀ a < eduDmaTestLen, f'.board.sys.dev.slab a =
    run writeBack f.board.sys.dev.slab ((leg.early ++ leg.late).flatMap FineEvent.coarse) a

/-- **A wait that finds nothing owed for an earlier run succeeds exactly if the handler ends its run for
the job in it.** -/
theorem fine_leg_ends (ht : Tracks factorial BoardEvent.Ambient bit P) (h : FineAt factorial bit P d f)
    {leg : FineLeg} (hnew : 1 < d.todo.length) (hpc : f.board.sys.pc.kicked = true)
    (hsettled : leg.Settled d) (hleg : ∀ e ∈ leg.early ++ leg.late, e.Ambient) :
    FineLegEnds factorial bit P d leg f (f.waitIrq factorial leg) := by
  rw [List.forall_mem_append] at hleg
  have hkept : Kept bit f.board.sys.pc (Record.of f.board.sys.dev) d f.board.sys :=
    ⟨rfl, rfl, fun hlength => absurd hlength (by omega)⟩
  obtain ⟨hearly, hfront⟩ := h.all_kept ht (fun _ => id) hkept hleg.1
  have hmid := ht.events h hleg.1
  have hkicked := (congrArg LegacyPc.kicked hearly.pc).trans hpc
  have harmed := hmid.arm ht hkicked
  unfold FineBoard.waitIrq
  generalize run (fineStep factorial) f leg.early = g at hearly hfront hkicked harmed
  rw [fine_arm factorial hkicked] at harmed ⊢
  have hrearmed : Kept bit f.board.sys.pc.armed (Record.of f.board.sys.dev)
      (run Debt.step d leg.early) { g.board.sys with
        dev := reinitCompletion g.board.sys.dev
        pc := g.board.sys.pc.armed } :=
    ⟨congrArg LegacyPc.armed hearly.pc, hearly.record, hearly.irq⟩
  obtain ⟨hlate, hback⟩ := harmed.all_kept ht (fun _ => id) hrearmed hleg.2
  refine ⟨?_, ?_, ?_, fun a ha => ?_⟩
  · rw [run_append]
    exact ht.events harmed hleg.2
  · rw [run_append]
    exact hlate
  · by_cases hover : (run Debt.step d leg.early).Over
    · have hfalse : ¬ leg.Serves d := fun hserves => hserves.1 hover
      rw [decide_eq_false hfalse]
      exact harmed.forgotten ht hover rfl hleg.2
    · have hserves : leg.Serves d ↔ (run Debt.step (run Debt.step d leg.early) leg.late).Over := by
        unfold FineLeg.Serves
        rw [and_iff_right hover, run_append]
      rw [Bool.eq_iff_iff, decide_eq_true_iff, hserves]
      exact harmed.completes ht hsettled (iff_of_false Bool.false_ne_true hover) hleg.2
  · rw [List.flatMap_append, run_append]
    exact (hback a ha).trans (writeBack_agree hfront _ a ha)

end

/-! ## One call -/

/-- Nothing is under way but a `complete_all`, if one is owed. -/
def FineRested (factorial : BitVec 32 → BitVec 32) (y : Tally) (f : FineBoard) : Prop :=
  FineAt factorial 1 (Rested factorial y.kicks y.calls) ⟨[], y.owed⟩ f

/-- The call answers so, and after a call that is served the next one can come. -/
structure FineFollows (factorial : BitVec 32 → BitVec 32) (y : Tally)
    (out : FineBoard × Except Errno Response) (answer : Record × Except Errno Response) : Prop where
  ret : out.2 = answer.2
  rested : answer.2 ≠ .error .etimedout → FineRested factorial y out.1
  pc : answer.2 ≠ .error .etimedout → out.1.board.sys.pc = .idle
  record : answer.2 ≠ .error .etimedout → .of out.1.board.sys.dev = answer.1

section
variable {factorial : BitVec 32 → BitVec 32} {bit : BitVec 32} {y : Tally} {f : FineBoard}
  {leg first second : FineLeg}

theorem fine_late {y : Tally} {r : Record} :
    FineFollows factorial y (f, .error .etimedout) (r, .error .etimedout) :=
  ⟨rfl, fun h => absurd rfl h, fun h => absurd rfl h, fun h => absurd rfl h⟩

theorem FineRested.events (h : FineRested factorial y f) {es : List FineEvent}
    (hes : ∀ e ∈ es, e.Ambient) :
    FineRested factorial (y.pass es) (run (fineStep factorial) f es) := by
  have hrun := (tracks_rested y.kicks y.calls).events h hes
  unfold FineRested Tally.pass
  generalize run Debt.step ⟨[], y.owed⟩ es = d at hrun ⊢
  obtain ⟨todo, owed⟩ := d
  have htodo := hrun.here.todo
  cases hrun.remains with
  | done => exact hrun
  | kick | finish | read | ack | post => cases htodo

theorem FineRested.begin (h : FineRested factorial y f) {w : Work} {e : Event}
    (hdevice : f.board.deviceStep factorial (.driver e) = f.board.begin .legacy w)
    (hinflight : (f.board.driverStep (.driver e)).dev.inflight = f.board.sys.dev.inflight)
    (hoff : BoardEvent.OffRings (.driver e)) :
    FineAt factorial w.irqBit (Waiting factorial (legacyJob y.kicks w) y.calls)
      ⟨fineErrand (legacyJob y.kicks w), y.owed⟩ (fineStep factorial f (.driver e)) :=
  ⟨h.inv.step _, ⟨serving_begin h.here.ready.calm hdevice hinflight, h.here.ready.empty.event hoff⟩,
    .finish _, h.status, h.owed⟩

theorem FineAt.rested {j : Job} {calls : Nat} {owed : Bool}
    (h : FineAt factorial bit (Waiting factorial j calls) ⟨[], owed⟩ f) :
    FineRested factorial ⟨j.serial + 1, calls, owed⟩ f ∧ f.board.Computed factorial j.work := by
  obtain ⟨hinv, ⟨hserving, hempty⟩, hremains, hstatus, howed⟩ := h
  cases hserving with
  | ended hcalm hfact => exact ⟨⟨hinv, ⟨rfl, hempty.ready hcalm⟩, hremains, hstatus, howed⟩, hfact⟩

theorem FineRested.aside (h : FineRested factorial y f) {b : Board} (hinv : BoardInv factorial b)
    (haside : Aside f.board b) : FineRested factorial y { f with board := b } :=
  FineAt.aside (tracks_rested y.kicks y.calls) h hinv haside

theorem fine_waitResult {P : List BoardEvent → Board → Prop} {d : Debt} {f' : FineBoard}
    (h : FineLegEnds factorial bit P d leg f f') :
    waitResult f'.board.sys.dev = if leg.Serves d then .ok () else .error .etimedout := by
  unfold waitResult
  rw [h.done]
  simp only [decide_eq_true_eq]

theorem marked_iff {r r' : Record} : r.marked 0 = r'.marked 0 ↔
    r.state.lastFactIn = r'.state.lastFactIn ∧ r.state.lastFactOut = r'.state.lastFactOut ∧
      r.state.dmaOk = r'.state.dmaOk ∧ r.fault = r'.fault := by
  simp [Record.marked, and_assoc]

theorem over_eq {d : Debt} (h : d.Over) : d = ⟨[], false⟩ := by
  obtain ⟨todo, owed⟩ := d
  obtain ⟨rfl, rfl⟩ : todo = [] ∧ owed = false := h
  rfl

theorem fine_factorial (h : FineRested factorial y f) (hpc : f.board.sys.pc = .idle) (n : BitVec 32)
    (back : List Byte) (hleg : ∀ e ∈ leg.early ++ leg.late, e.Ambient)
    (hsettled : leg.Settled ⟨fineErrand (legacyJob y.kicks (.factorial n)), y.owed⟩) :
    FineFollows factorial ⟨y.kicks + 1, y.calls, false⟩
      (match f.runFactorial factorial n leg with
        | (f, .ok req) => (f, .ok (.factorial req))
        | (f, .error _) => (f, .error .etimedout))
      ((Record.of f.board.sys.dev).reply factorial
        (leg.Serves ⟨fineErrand (legacyJob y.kicks (.factorial n)), y.owed⟩) back (.factorial n)) := by
  have hdevice : f.board.deviceStep factorial (.driver (.factorial n)) =
      f.board.begin .legacy (.factorial n) := by
    show f.board.legacyStep (f.board.sys.pc = .idle) (factorialStart f.board.sys.dev n).2 = _
    rw [Board.legacyStep, if_pos (decide_eq_true hpc), writes_factorialStart]
  have hsys : (fineStep factorial f (.driver (.factorial n))).board.sys =
      { f.board.sys with dev := (factorialStart f.board.sys.dev n).1, pc := .factorialKicked } :=
    if_pos hpc
  have hbegun := h.begin hdevice (congrArg (·.dev.inflight) hsys) trivial
  have hend := fine_leg_ends (tracks_waiting (legacyJob y.kicks (.factorial n)) y.calls) hbegun
    (by simp [fineErrand]) (by rw [hsys]; rfl) hsettled hleg
  unfold FineBoard.runFactorial Record.reply
  generalize (fineStep factorial f (.driver (.factorial n))).waitIrq factorial leg = f' at hend ⊢
  simp only [fine_waitResult hend]
  by_cases hin : leg.Serves ⟨fineErrand (legacyJob y.kicks (.factorial n)), y.owed⟩
  · have hkept := hend.kept
    have hends := hend.ends
    rw [over_eq hin.2] at hkept hends
    obtain ⟨hrested, hfact⟩ := hends.rested
    have hirq := hkept.irq (Nat.zero_le 1)
    have hdone : f'.board.sys.dev.irqDone = true := hend.done.trans (decide_eq_true hin)
    have hpc' : f'.board.sys.pc = .factorialWaiting := by rw [hkept.pc, hsys]; rfl
    have hwake : fineStep factorial f' (.driver (.wake f'.board.regFact)) = { f' with
        board.sys := { f'.board.sys with
          dev := factorialFinish f'.board.sys.dev f'.board.regFact
          pc := .idle } } :=
      congrArg (fun b => ({ f' with board := b } : FineBoard)) (wake_factorial hdone hpc')
    have hinv := (hrested.inv.step (.driver (.wake f'.board.regFact))).board
    obtain ⟨hfactIn, -, hdmaOk, hfault⟩ := marked_iff.mp hkept.record
    rw [hsys] at hfactIn hdmaOk hfault
    simp only [if_pos hin, decide_eq_true hin, if_true, hwake] at hinv ⊢
    refine ⟨?_, fun _ => hrested.aside hinv ⟨{}, rfl, rfl, rfl, rfl, rfl, rfl, rfl, rfl, rfl⟩,
      fun _ => rfl, fun _ => ?_⟩
    · simp only [Record.computes, hfact n rfl, hirq, legacyJob]
    · simp only [Record.of] at hfactIn hdmaOk hfault
      simp only [Record.computes, Record.of, factorialFinish, hfact n rfl, hirq, hfactIn, hdmaOk,
        hfault, factorialStart, legacyJob]
  · simp only [if_neg hin, decide_eq_false hin, Bool.false_eq_true, if_false]
    exact fine_late

/-- With nothing owed at the kick, what is owed later is owed for the job. -/
theorem FineAt.own {P : List BoardEvent → Board → Prop} {d : Debt}
    (ht : Tracks factorial BoardEvent.Ambient bit P) (h : FineAt factorial bit P d f)
    (hown : d.owed = true → d.todo = []) {es : List FineEvent} (hes : ∀ e ∈ es, e.Ambient) :
    (run Debt.step d es).owed = true → (run Debt.step d es).todo = [] := by
  induction es generalizing d f with
  | nil => exact hown
  | cons e es ih =>
    rw [List.forall_mem_cons] at hes
    exact ih (ht.event h hes.1) (own_step h.remains hown e) hes.2

theorem fine_back (slab : Mem) {slab' : Mem} (h : ∀ a < eduDmaTestLen, slab' a =
    run writeBack (setPayload slab zeroPayload) ((leg.early ++ leg.late).flatMap FineEvent.coarse) a) :
    slab'.get 0 eduDmaTestLen = leg.back := by
  refine Mem.get_congr fun a _ ha => ?_
  rw [Nat.zero_add] at ha
  rw [h a ha]
  exact writeBack_agree (zeroed slab) _ a ha

theorem fine_dmaTest (h : FineRested factorial y f) (hpc : f.board.sys.pc = .idle)
    (hfirst : ∀ e ∈ first.early ++ first.late, e.Ambient)
    (hsecond : ∀ e ∈ second.early ++ second.late, e.Ambient)
    (hsettled : first.Settled ⟨fineErrand (legacyJob y.kicks .dma), y.owed⟩) :
    FineFollows factorial ⟨y.kicks + 2, y.calls, false⟩
      ((f.runDmaTest factorial first second).1,
        (f.runDmaTest factorial first second).2.map fun _ => .dmaTest)
      ((Record.of f.board.sys.dev).reply factorial
        (first.Serves ⟨fineErrand (legacyJob y.kicks .dma), y.owed⟩ ∧
          second.Serves ⟨fineErrand (legacyJob (y.kicks + 1) .dma), false⟩ : Bool)
        second.back .dmaTest) := by
  have hdevice : f.board.deviceStep factorial (.driver .dmaTest) = f.board.begin .legacy .dma := by
    show f.board.legacyStep (f.board.sys.pc = .idle) (dmaTestStart f.board.sys.dev).2 = _
    rw [Board.legacyStep, if_pos (decide_eq_true hpc), writes_dmaTestStart]
  have hsys : (fineStep factorial f (.driver .dmaTest)).board.sys =
      { f.board.sys with dev := (dmaTestStart f.board.sys.dev).1, pc := .firstKicked } := if_pos hpc
  have hbegun := h.begin hdevice (congrArg (·.dev.inflight) hsys) trivial
  have hend := fine_leg_ends (tracks_waiting (legacyJob y.kicks .dma) y.calls) hbegun
    (by simp [fineErrand]) (by rw [hsys]; rfl) hsettled hfirst
  unfold FineBoard.runDmaTest Record.reply
  generalize (fineStep factorial f (.driver .dmaTest)).waitIrq factorial first = f' at hend ⊢
  simp only [fine_waitResult hend]
  by_cases hin : first.Serves ⟨fineErrand (legacyJob y.kicks .dma), y.owed⟩
  · have hkept := hend.kept
    have hends := hend.ends
    rw [over_eq hin.2] at hkept hends
    have hrested : FineRested factorial ⟨y.kicks + 1, y.calls, false⟩ f' := hends.rested.1
    have hdone : f'.board.sys.dev.irqDone = true := hend.done.trans (decide_eq_true hin)
    have hpc' : f'.board.sys.pc = .firstWaiting := by rw [hkept.pc, hsys]; rfl
    obtain ⟨hdevice', hdriver'⟩ := wake_first factorial hdone hpc'
    have hsys' : (fineStep factorial f' (.driver (.wake f'.board.regFact))).board.sys =
        { f'.board.sys with dev := (dmaTestReadBack f'.board.sys.dev).1, pc := .secondKicked } :=
      hdriver'
    have hbegun' := hrested.begin hdevice' (congrArg (·.dev.inflight) hdriver') trivial
    have htracks : Tracks factorial BoardEvent.Ambient _ _ :=
      tracks_waiting (legacyJob (y.kicks + 1) .dma) y.calls
    have hsettled' : second.Settled ⟨fineErrand (legacyJob (y.kicks + 1) .dma), false⟩ :=
      hbegun'.own htracks (fun howed => absurd howed Bool.false_ne_true)
        (List.forall_mem_append.mp hsecond).1
    have hend' := fine_leg_ends htracks hbegun' (by simp [fineErrand]) (by rw [hsys']; rfl) hsettled'
      hsecond
    simp only [if_pos hin]
    generalize (fineStep factorial f' (.driver (.wake f'.board.regFact))).waitIrq factorial second = f''
      at hend' ⊢
    simp only [fine_waitResult hend']
    by_cases hin' : second.Serves ⟨fineErrand (legacyJob (y.kicks + 1) .dma), false⟩
    · have hkept' := hend'.kept
      have hends' := hend'.ends
      rw [over_eq hin'.2] at hkept' hends'
      have hrested' : FineRested factorial ⟨y.kicks + 2, y.calls, false⟩ f'' := hends'.rested.1
      have hdone' : f''.board.sys.dev.irqDone = true := hend'.done.trans (decide_eq_true hin')
      have hpc'' : f''.board.sys.pc = .secondWaiting := by rw [hkept'.pc, hsys']; rfl
      have hback : f''.board.sys.dev.slab.get 0 eduDmaTestLen = second.back := by
        refine fine_back f'.board.sys.dev.slab fun a ha => ?_
        rw [hend'.payload a ha, hsys']
        rfl
      have hwake : fineStep factorial f'' (.driver (.wake f''.board.regFact)) = { f'' with
          board.sys := { f''.board.sys with
            dev := (dmaTestFinish f''.board.sys.dev).1
            pc := .idle } } :=
        congrArg (fun b => ({ f'' with board := b } : FineBoard)) (wake_second hdone' hpc'')
      have hrecord : Record.of f''.board.sys.dev =
          { Record.of f.board.sys.dev with state.lastIrq := Work.dma.irqBit } := by
        obtain ⟨hfactIn, hfactOut, hok, hfault⟩ := marked_iff.mp hkept.record
        obtain ⟨hfactIn', hfactOut', hok', hfault'⟩ := marked_iff.mp hkept'.record
        rw [hsys] at hfactIn hfactOut hok hfault
        rw [hsys'] at hfactIn' hfactOut' hok' hfault'
        have hirq' := hkept'.irq (Nat.zero_le 1)
        simp only [Record.of, dmaTestStart, dmaTestReadBack, legacyJob] at *
        simp only [*]
      obtain ⟨hof, hret⟩ := finish_tests hrecord
      rw [hback] at hof hret
      have hinv := (hrested'.inv.step (.driver (.wake f''.board.regFact))).board
      have hinv'' : BoardInv factorial { f''.board with
          sys := { f''.board.sys with dev := (dmaTestFinish f''.board.sys.dev).1, pc := .idle } } := by
        rw [hwake] at hinv
        exact hinv
      simp only [if_pos hin', decide_eq_true (And.intro hin hin'), if_true, hwake]
      refine ⟨hret, fun _ => hrested'.aside hinv'' ?_, fun _ => rfl, fun _ => hof⟩
      obtain ⟨_, _, _, hfinish⟩ := dmaTestFinish_eq f''.board.sys.dev
      rw [hfinish]
      exact ⟨{}, rfl, rfl, rfl, rfl, rfl, rfl, rfl, rfl, rfl⟩
    · simp only [if_neg hin', decide_eq_false (not_and_of_not_right _ hin'), Bool.false_eq_true, if_false]
      exact fine_late
  · simp only [if_neg hin, decide_eq_false (not_and_of_not_left _ hin), Bool.false_eq_true, if_false]
    exact fine_late

theorem record_ext {s s' : Sys} (h : (Record.of s'.dev).marked 0 = (Record.of s.dev).marked 0)
    (hirq : s'.dev.lastIrq = s.dev.lastIrq) : Record.of s'.dev = Record.of s.dev := by
  obtain ⟨hfactIn, hfactOut, hok, hfault⟩ := marked_iff.mp h
  simp only [Record.of] at *
  simp only [*]

theorem FineRested.still (h : FineRested factorial y f) {es : List FineEvent}
    (hes : ∀ e ∈ es, e.Ambient) :
    (run (fineStep factorial) f es).board.sys.pc = f.board.sys.pc ∧
      Record.of (run (fineStep factorial) f es).board.sys.dev = .of f.board.sys.dev := by
  induction es generalizing y f with
  | nil => exact ⟨rfl, rfl⟩
  | cons e es ih =>
    rw [List.forall_mem_cons] at hes
    have hleaves := FineAt.leaves h hes.1
    obtain ⟨hpc, hrecord⟩ := ih (h.events (List.forall_mem_singleton.mpr hes.1)) hes.2
    have hirq := hleaves.irq.trans (if_neg (by simp))
    exact ⟨hpc.trans hleaves.pc, hrecord.trans (record_ext hleaves.record hirq)⟩

/-- **Each call goes as it is served**, if the run of the handler before it has ended in time. -/
theorem fine_ioctl (h : FineRested factorial y f) (hpc : f.board.sys.pc = .idle) {t : FineTurn}
    (ht : t.Ambient) (hsettled : t.Settled y) :
    FineFollows factorial (t.next y) (f.ioctl factorial t)
      ((Record.of f.board.sys.dev).reply factorial (t.Served y) t.second.back t.call) := by
  have hrested := h.events ht.before
  obtain ⟨hpc', hrecord⟩ := h.still ht.before
  rw [← hrecord]
  have hidle := hpc'.trans hpc
  obtain ⟨call, before, first, second⟩ := t
  cases call with
  | factorial n => exact fine_factorial hrested hidle n second.back ht.first hsettled
  | dmaTest => exact fine_dmaTest hrested hidle ht.first ht.second hsettled
  | getState => exact ⟨rfl, fun _ => hrested, fun _ => hidle, fun _ => rfl⟩

end

end PcieDriver.Edu
