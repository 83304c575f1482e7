import PcieDriver.Edu.Jobs

/-!
# The wait of a legacy ioctl

Each leg of a legacy ioctl writes its command, then calls `reinit_completion`, and then waits. A
handler that runs to its end between the first two is forgotten.
-/

open Base

namespace PcieDriver.Edu

/-! ## The caller -/

def LegacyPc.kicked : LegacyPc → Bool
  | .factorialKicked | .firstKicked | .secondKicked => true
  | _ => false

/-- Where `reinit_completion` takes a leg that is kicked. -/
def LegacyPc.armed : LegacyPc → LegacyPc
  | .factorialKicked => .factorialWaiting
  | .firstKicked => .firstWaiting
  | .secondKicked => .secondWaiting
  | pc => pc

def LegacyPc.waiting : LegacyPc → Bool
  | .factorialWaiting | .firstWaiting | .secondWaiting => true
  | _ => false

/-- What the step kicks for the legacy ioctl, if it does. -/
def Board.legacyKick (b : Board) : BoardEvent → Option Work
  | .driver (.factorial input) => if b.sys.pc = .idle then some (.factorial input) else none
  | .driver .dmaTest => if b.sys.pc = .idle then some .dma else none
  | .driver (.wake _) =>
    if b.sys.dev.irqDone ∧ b.sys.pc = .firstWaiting then some .dma else none
  | _ => none

/-- The jobs of the handler's run that the step ends. -/
def Board.reported (b : Board) : BoardEvent → List Job
  | .irqPost => b.handled
  | _ => []

/-- The board and the legacy ioctl under way. `own` is the job that it kicked last, and `handled`
tells whether a run of the handler for that job has ended. `wokenBy` are the jobs of the run that
completed `irq_done`. -/
@[ext] structure Caller where
  board : Board
  own : Option Job
  handled : Bool
  wokenBy : List Job

namespace Caller

def powered (d : EduDev) (fact : BitVec 32) : Caller := ⟨.powered d fact, none, false, []⟩

def ownStep (c : Caller) (e : BoardEvent) : Option Job :=
  match c.board.legacyKick e with
  | some w => some ⟨c.board.kicks, .legacy, w⟩
  | none => c.own

def handledStep (c : Caller) (e : BoardEvent) : Bool :=
  match c.board.legacyKick e with
  | some _ => false
  | none => c.handled || (c.board.reported e).any fun j => c.own == some j

end Caller

def callerStep (factorial : BitVec 32 → BitVec 32) (c : Caller) (e : BoardEvent) : Caller where
  board := boardStep factorial c.board e
  own := c.ownStep e
  handled := c.handledStep e
  wokenBy :=
    if c.board.sys.dev.irqDone = false ∧ (boardStep factorial c.board e).sys.dev.irqDone = true then
      c.board.reported e
    else c.wokenBy

/-! ## The property and its condition -/

/-- A wait whose own interrupt has been handled ends with 0. -/
def WakesUp (c : Caller) : Prop :=
  c.board.sys.pc.waiting = true → c.handled = true → waitResult c.board.sys.dev = .ok ()

/-- `reinit_completion` comes before the handler has ended its run for the command just written. -/
def ArmedInTime (c : Caller) : BoardEvent → Prop
  | .driver .arm => c.board.sys.pc.kicked = true → c.handled = false
  | _ => True

theorem waitResult_ok {e : EduDev} : waitResult e = .ok () ↔ e.irqDone = true := by
  unfold waitResult
  split_ifs with h <;> simp [h]

theorem armed_waiting {pc : LegacyPc} (h : pc.kicked = true) : pc.armed.waiting = true := by
  cases pc <;> first | rfl | cases h

/-! ## What a step does to the wait -/

/-- `irq_done` is as it was, and so is the input of the factorial. -/
structure SameWait (s s' : Sys) : Prop where
  done : s'.dev.irqDone = s.dev.irqDone := by rfl
  input : s'.dev.lastFactIn = s.dev.lastFactIn := by rfl

/-- Everything that a step can do to the legacy ioctl under way and to its completion. -/
inductive Flow (s : Sys) : Event → Sys → Prop
  | stays (e s') (hpc : s'.pc = s.pc) (hsame : SameWait s s') : Flow s e s'
  | signalled (stat fact s') (hstat : stat ≠ 0) (hpc : s'.pc = s.pc) (hdone : s'.dev.irqDone = true)
      (hinput : s'.dev.lastFactIn = s.dev.lastFactIn) : Flow s (.irq stat fact) s'
  | started (input) (hidle : s.pc = .idle) : Flow s (.factorial input)
      { s with dev := (factorialStart s.dev input).1, pc := .factorialKicked }
  | leg (e s') (hirq : ∀ stat fact, e ≠ .irq stat fact)
      (hpc : s'.pc = .firstKicked ∨ s'.pc = .secondKicked) (hsame : SameWait s s') : Flow s e s'
  | armed (hkicked : s.pc.kicked = true) :
      Flow s .arm { s with dev := reinitCompletion s.dev, pc := s.pc.armed }
  | ended (e s') (hirq : ∀ stat fact, e ≠ .irq stat fact) (hpc : s'.pc = .idle)
      (hsame : SameWait s s') : Flow s e s'

section
variable (s : Sys)

theorem irq_flow (stat fact : BitVec 32) : Flow s (.irq stat fact) (s.irqStep stat fact) := by
  have hstep : s.irqStep stat fact = step s (.irq stat fact) := rfl
  rw [hstep]
  by_cases hstat : stat = 0
  · subst hstat
    rw [step_irq_ignored]
    exact .stays _ _ rfl {}
  · cases hfirst : firstInflight s.dev with
    | none =>
      rw [step_irq_idle hstat hfirst]
      exact .signalled _ _ _ hstat rfl rfl rfl
    | some i =>
      rw [step_irq_posts hstat hfirst]
      exact .signalled _ _ _ hstat rfl rfl rfl

theorem armStep_kicked (hkicked : s.pc.kicked = true) :
    s.armStep = { s with dev := reinitCompletion s.dev, pc := s.pc.armed } := by
  unfold Sys.armStep
  cases hpc : s.pc with
  | factorialKicked | firstKicked | secondKicked => rfl
  | idle | factorialWaiting | firstWaiting | secondWaiting => simp [hpc, LegacyPc.kicked] at hkicked

theorem armStep_other (hkicked : ¬ s.pc.kicked = true) : s.armStep = s := by
  unfold Sys.armStep
  cases hpc : s.pc with
  | factorialKicked | firstKicked | secondKicked => simp [hpc, LegacyPc.kicked] at hkicked
  | idle | factorialWaiting | firstWaiting | secondWaiting => rfl

theorem arm_flow : Flow s .arm s.armStep := by
  by_cases hkicked : s.pc.kicked = true
  · rw [armStep_kicked s hkicked]
    exact .armed hkicked
  · rw [armStep_other s hkicked]
    exact .stays _ _ rfl {}

theorem wake_flow (fact : BitVec 32) : Flow s (.wake fact) (s.wakeStep fact) := by
  unfold Sys.wakeStep
  split
  · split
    · exact .ended _ _ (by simp) rfl {}
    · exact .leg _ _ (by simp) (.inr rfl) {}
    · obtain ⟨_, _, _, h⟩ := dmaTestFinish_eq s.dev
      rw [h]
      exact .ended _ _ (by simp) rfl {}
    · exact .stays _ _ rfl {}
  · exact .stays _ _ rfl {}

theorem timeout_flow : Flow s .timeout s.timeoutStep := by
  unfold Sys.timeoutStep
  split
  · exact .stays _ _ rfl {}
  · split
    · exact .ended _ _ (by simp) rfl {}
    · exact .ended _ _ (by simp) rfl {}
    · exact .ended _ _ (by simp) rfl {}
    · exact .stays _ _ rfl {}

theorem step_flow (e : Event) : Flow s e (step s e) := by
  cases e with
  | submit client req =>
    cases hfull : ringFull s.dev.sqTail s.dev.cqHead with
    | true => rw [step_submit_full hfull]; exact .stays _ _ rfl {}
    | false => rw [step_submit_claims hfull]; exact .stays _ _ rfl {}
  | irq stat fact => exact irq_flow s stat fact
  | pollCq client =>
    by_cases hempty : s.dev.cqHead = s.dev.cqTail
    · rw [step_poll_empty hempty]; exact .stays _ _ rfl {}
    · rw [step_poll_takes hempty]; exact .stays _ _ rfl {}
  | factorial input =>
    by_cases hpc : s.pc = .idle
    · simp only [step, if_pos hpc]
      exact .started input hpc
    · simp only [step, if_neg hpc]
      exact .stays _ _ rfl {}
  | dmaTest =>
    by_cases hpc : s.pc = .idle
    · simp only [step, if_pos hpc]
      exact .leg _ _ (by simp) (.inl rfl) {}
    · simp only [step, if_neg hpc]
      exact .stays _ _ rfl {}
  | arm => exact arm_flow s
  | wake fact => exact wake_flow s fact
  | timeout => exact timeout_flow s
  | «open» | dmaWrite | setEventfd | resetStats => exact .stays _ _ rfl {}

end

/-! ## Steps of the board -/

section
variable {factorial : BitVec 32 → BitVec 32} {b : Board} {e : BoardEvent}

theorem reported_mem {j : Job} (h : j ∈ b.reported e) :
    ∃ stat js, e = .irqPost ∧ b.handler = some (stat, js) ∧ j ∈ js := by
  cases e with
  | driver | kick | finish | irqEnter => simp [Board.reported] at h
  | irqPost =>
    cases hhandler : b.handler with
    | none => simp [Board.reported, Board.handled, hhandler] at h
    | some handled =>
      obtain ⟨stat, js⟩ := handled
      rw [Board.reported, handled_eq hhandler] at h
      exact ⟨stat, js, rfl, rfl, h⟩

theorem irqPost_done (hinv : BoardInv factorial b) {stat : BitVec 32} {js : List Job}
    (hhandler : b.handler = some (stat, js)) :
    (boardStep factorial b .irqPost).sys.dev.irqDone = true := by
  have hstat := hinv.stat stat js hhandler
  cases hfirst : firstInflight b.sys.dev with
  | none =>
    have hsys : (boardStep factorial b .irqPost).sys = _ := driverStep_idle hhandler hstat hfirst
    rw [hsys]
    rfl
  | some i =>
    have hsys : (boardStep factorial b .irqPost).sys = _ := driverStep_posts hhandler hstat hfirst
    rw [hsys]
    rfl

theorem kernelStep_kicks {e : Event} {w : Work} (h : b.legacyKick (.driver e) = some w) :
    b.kernelStep e = b.begin .legacy w := by
  cases e with
  | factorial input =>
    obtain ⟨hpc, hw⟩ := Option.ite_none_right_eq_some.mp h
    have hstep : b.kernelStep (.factorial input) =
        b.legacyStep (b.sys.pc = .idle) (factorialStart b.sys.dev input).2 := rfl
    rw [hstep, Board.legacyStep, if_pos (decide_eq_true hpc), ← Option.some.inj hw]
    exact writes_factorialStart b .legacy b.sys.dev input
  | dmaTest =>
    obtain ⟨hpc, hw⟩ := Option.ite_none_right_eq_some.mp h
    have hstep : b.kernelStep .dmaTest =
        b.legacyStep (b.sys.pc = .idle) (dmaTestStart b.sys.dev).2 := rfl
    rw [hstep, Board.legacyStep, if_pos (decide_eq_true hpc), ← Option.some.inj hw]
    exact writes_dmaTestStart b .legacy b.sys.dev
  | wake fact =>
    obtain ⟨hwoken, hw⟩ := Option.ite_none_right_eq_some.mp h
    have hstep : b.kernelStep (.wake fact) =
        b.legacyStep (b.sys.dev.irqDone ∧ b.sys.pc = .firstWaiting) (dmaTestReadBack b.sys.dev).2 :=
      rfl
    rw [hstep, Board.legacyStep, if_pos (decide_eq_true hwoken), ← Option.some.inj hw]
    exact writes_readBack b .legacy b.sys.dev
  | «open» | submit | irq | pollCq | arm | timeout | dmaWrite | setEventfd | resetStats => cases h

theorem kernelStep_quiet {e : Event} (h : b.legacyKick (.driver e) = none) :
    ∃ unkicked raised, b.kernelStep e = { b with unkicked := unkicked, raised := raised } := by
  have hthere : ∀ {p : Prop} [Decidable p] {w : Work}, (if p then some w else none) = none → ¬ p := by
    intro p _ w hif hp
    rw [if_pos hp] at hif
    cases hif
  cases e with
  | «open» client => exact ⟨b.unkicked, [], rfl⟩
  | submit client req =>
    have hstep : b.kernelStep (.submit client req) = b.submitStep client req := rfl
    rw [hstep, Board.submitStep]
    split_ifs
    · exact ⟨_, b.raised, rfl⟩
    · exact ⟨b.unkicked, b.raised, rfl⟩
  | factorial input =>
    have hstep : b.kernelStep (.factorial input) =
        b.legacyStep (b.sys.pc = .idle) (factorialStart b.sys.dev input).2 := rfl
    rw [hstep, Board.legacyStep, decide_eq_false (hthere h), if_neg Bool.false_ne_true]
    exact ⟨b.unkicked, b.raised, rfl⟩
  | dmaTest =>
    have hstep : b.kernelStep .dmaTest =
        b.legacyStep (b.sys.pc = .idle) (dmaTestStart b.sys.dev).2 := rfl
    rw [hstep, Board.legacyStep, decide_eq_false (hthere h), if_neg Bool.false_ne_true]
    exact ⟨b.unkicked, b.raised, rfl⟩
  | wake fact =>
    have hstep : b.kernelStep (.wake fact) =
        b.legacyStep (b.sys.dev.irqDone ∧ b.sys.pc = .firstWaiting) (dmaTestReadBack b.sys.dev).2 :=
      rfl
    rw [hstep, Board.legacyStep, decide_eq_false (hthere h), if_neg Bool.false_ne_true]
    exact ⟨b.unkicked, b.raised, rfl⟩
  | irq | pollCq | arm | timeout | dmaWrite | setEventfd | resetStats =>
    exact ⟨b.unkicked, b.raised, rfl⟩

theorem done_rises (h : b.sys.dev.irqDone = false)
    (h' : (boardStep factorial b e).sys.dev.irqDone = true) : e = .irqPost := by
  have hsys : (boardStep factorial b e).sys = b.driverStep e := rfl
  rw [hsys] at h'
  cases hseen : b.seen e with
  | none =>
    rw [driverStep_none hseen, h] at h'
    cases h'
  | some e' =>
    rw [driverStep_some hseen] at h'
    generalize hs' : step b.sys e' = s' at h'
    have hflow : Flow b.sys e' s' := hs' ▸ step_flow b.sys e'
    cases hflow with
    | stays _ _ _ hsame | leg _ _ _ _ hsame | ended _ _ _ _ hsame =>
      rw [hsame.done, h] at h'
      cases h'
    | started =>
      have hstart : b.sys.dev.irqDone = true := h'
      rw [h] at hstart
      cases hstart
    | armed => cases h'
    | signalled =>
      cases e with
      | driver e => cases e <;> cases hseen
      | kick | finish | irqEnter => cases hseen
      | irqPost => rfl

end

/-! ## The wait -/

section
variable {factorial : BitVec 32 → BitVec 32} {c : Caller} {e : BoardEvent}

theorem handled_of_step (h : c.handledStep e = true) :
    (∃ j ∈ c.board.reported e, c.own = some j) ∨ c.handled = true := by
  unfold Caller.handledStep at h
  split at h
  · cases h
  · simpa [or_comm] using h

theorem wakesUp_step (hinv : BoardInv factorial c.board) (h : WakesUp c) (he : ArmedInTime c e) :
    WakesUp (callerStep factorial c e) := by
  intro hwaiting hhandled
  rw [waitResult_ok]
  rcases handled_of_step hhandled with ⟨j, hj, -⟩ | hbefore
  · obtain ⟨stat, js, rfl, hhandler, -⟩ := reported_mem hj
    exact irqPost_done hinv hhandler
  · have hsys : (callerStep factorial c e).board.sys = c.board.driverStep e := rfl
    rw [hsys] at hwaiting ⊢
    cases hseen : c.board.seen e with
    | none =>
      rw [driverStep_none hseen] at hwaiting ⊢
      exact waitResult_ok.mp (h hwaiting hbefore)
    | some e' =>
      rw [driverStep_some hseen] at hwaiting ⊢
      generalize hs' : step c.board.sys e' = s' at hwaiting ⊢
      have hflow : Flow c.board.sys e' s' := hs' ▸ step_flow c.board.sys e'
      cases hflow with
      | stays _ _ hpc hsame =>
        rw [hpc] at hwaiting
        rw [hsame.done]
        exact waitResult_ok.mp (h hwaiting hbefore)
      | signalled _ _ _ _ _ hdone _ => exact hdone
      | started => cases hwaiting
      | leg _ _ _ hpc _ => rcases hpc with hpc | hpc <;> rw [hpc] at hwaiting <;> cases hwaiting
      | armed hkicked =>
        obtain rfl := seen_driver hseen (by simp) (by simp)
        rw [he hkicked] at hbefore
        cases hbefore
      | ended _ _ _ hpc _ =>
        rw [hpc] at hwaiting
        cases hwaiting

theorem armedInTime_of_wakesUp (h : WakesUp (callerStep factorial c e)) : ArmedInTime c e := by
  cases e with
  | kick | finish | irqEnter | irqPost => trivial
  | driver e =>
    cases e with
    | arm =>
      intro hkicked
      by_contra hhandled
      have hsys : (callerStep factorial c (.driver .arm)).board.sys = _ :=
        armStep_kicked c.board.sys hkicked
      have hstep : (callerStep factorial c (.driver .arm)).handled = (c.handled || false) := rfl
      have hhandled' : (callerStep factorial c (.driver .arm)).handled = true := by
        rw [hstep, Bool.or_false]
        exact Bool.eq_true_of_not_eq_false hhandled
      have hok := h (by rw [hsys]; exact armed_waiting hkicked) hhandled'
      rw [waitResult_ok, hsys] at hok
      cases hok
    | «open» | submit | irq | pollCq | factorial | dmaTest | wake | timeout | dmaWrite | setEventfd
    | resetStats => trivial

end

/-- **No wake-up is lost** in a run exactly if every `reinit_completion` comes before the handler
has ended its run for the command just written. -/
theorem no_lost_wakeup_iff (factorial : BitVec 32 → BitVec 32) (d : EduDev) (fact : BitVec 32)
    (evs : List BoardEvent) :
    Always (callerStep factorial) WakesUp (.powered d fact) evs ↔
      Along (callerStep factorial) ArmedInTime (.powered d fact) evs := by
  constructor
  · intro h
    exact h.steps.mono fun _ _ hc => armedInTime_of_wakesUp hc.2
  · intro h
    have hboth : Always (callerStep factorial)
        (fun c => BoardInv factorial c.board ∧ WakesUp c) (.powered d fact) evs :=
      Always.of_step (fun _ e hc he => ⟨hc.1.step e, wakesUp_step hc.1 hc.2 he⟩)
        ⟨BoardInv.powered d fact, fun hwaiting => by cases hwaiting⟩ h
    exact hboth.mono fun _ hc => hc.2

/-- The device is fast: it ends the factorial, and the handler its run, before the caller gets to
`reinit_completion`. Nothing is left to wake the caller, and its time runs out. -/
theorem fast_interrupt_is_forgotten :
    let evs : List BoardEvent := [.driver (.factorial 5), .finish ⟨0, .legacy, .factorial 5⟩,
      .irqEnter, .irqPost, .driver .arm]
    let c := run (callerStep factorial32) (.powered freshDev 0) evs
    ¬ WakesUp c ∧ c.own = some ⟨0, .legacy, .factorial 5⟩ ∧ c.handled = true ∧ c.board.jobs = [] ∧
      waitResult c.board.sys.dev = .error .etimedout ∧
      (callerStep factorial32 c (.driver .timeout)).board.sys.pc = .idle := by
  intro evs c
  have hresult : waitResult c.board.sys.dev = .error .etimedout := by decide
  refine ⟨fun h => ?_, by decide, by decide, by decide, hresult, by decide⟩
  have hok := h (by decide) (by decide)
  rw [hresult] at hok
  cases hok

end PcieDriver.Edu
