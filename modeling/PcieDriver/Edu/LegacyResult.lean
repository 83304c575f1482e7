import PcieDriver.Edu.Caller

/-!
# The result of a legacy factorial

`edu_run_factorial` trusts the first interrupt that comes after `reinit_completion`, and then reads
`REG_FACT`. Both are its own if nobody else ends the wait or gets to the register.
-/

open Base

namespace PcieDriver.Edu

/-! ## The property and its condition -/

def Caller.InFactorial (c : Caller) : Prop :=
  c.board.sys.pc = .factorialKicked ∨ c.board.sys.pc = .factorialWaiting

/-- `edu_run_factorial` returns 0 after the interrupt for its own write, and its output is the
result of that write. -/
def ReturnsOwn (factorial : BitVec 32 → BitVec 32) (c : Caller) (e : BoardEvent) : Prop :=
  match e with
  | .driver (.wake _) => c.board.sys.pc = .factorialWaiting → c.board.sys.dev.irqDone = true →
      ∃ j ∈ c.wokenBy, c.own = some j ∧ j.work = .factorial c.board.sys.dev.lastFactIn ∧
        c.board.factBy = some j ∧
        (c.board.driverStep e).dev.lastFactOut = factorial c.board.sys.dev.lastFactIn
  | _ => True

/-- The factorial is under way, and the device is done with its write. -/
def Caller.OwnEnded (c : Caller) : Prop :=
  c.InFactorial ∧ ∀ j ∈ c.board.running, c.own ≠ some j

/-- The handler's run that completes the wait is for the caller's own write, and once the device is
done with that write, no other factorial is kicked or ends. -/
def Undisturbed (c : Caller) : BoardEvent → Prop
  | .irqPost => c.board.sys.pc = .factorialWaiting → c.board.sys.dev.irqDone = false →
      ∀ stat js, c.board.handler = some (stat, js) → ∃ j ∈ js, c.own = some j
  | .kick cmd => c.OwnEnded → cmd ∈ c.board.unkicked → cmd.req.opcode ≠ eduOpFactorial
  | .finish j => c.OwnEnded → j ∈ c.board.running → j.work = .dma
  | _ => True

/-! ## The invariant -/

structure CallInv (factorial : BitVec 32 → BitVec 32) (c : Caller) : Prop where
  board : BoardInv factorial c.board
  jobs : JobsInv c.board
  own : c.InFactorial → ∃ n, c.own = some ⟨n, .legacy, .factorial c.board.sys.dev.lastFactIn⟩
  woken : ∀ j ∈ c.wokenBy, j.serial < c.board.kicks ∧ j ∉ c.board.running
  ended : c.OwnEnded → c.board.factBy = c.own
  wake : c.board.sys.pc = .factorialWaiting → c.board.sys.dev.irqDone = true →
    ∃ j ∈ c.wokenBy, c.own = some j

/-- The legacy ioctl and its completion are as they were. -/
structure SameCall (c c' : Caller) : Prop where
  pc : c'.board.sys.pc = c.board.sys.pc
  done : c'.board.sys.dev.irqDone = c.board.sys.dev.irqDone
  input : c'.board.sys.dev.lastFactIn = c.board.sys.dev.lastFactIn
  own : c'.own = c.own
  wokenBy : c'.wokenBy = c.wokenBy

theorem SameCall.inFactorial {c c' : Caller} (h : SameCall c c') :
    c'.InFactorial ↔ c.InFactorial := by
  rw [Caller.InFactorial, Caller.InFactorial, h.pc]

section
variable {factorial : BitVec 32 → BitVec 32} {c : Caller} {e : BoardEvent}

theorem callInv_powered (d : EduDev) (fact : BitVec 32) :
    CallInv factorial (.powered d fact) where
  board := .powered d fact
  jobs := .powered d fact
  own := by
    rintro (h | h) <;> cases h
  woken := by simp [Caller.powered]
  ended := by
    rintro ⟨h | h, -⟩ <;> cases h
  wake := by
    intro h
    cases h

theorem CallInv.device (h : CallInv factorial c) {c' : Caller} (hboard : BoardInv factorial c'.board)
    (hjobs : JobsInv c'.board) (hsame : SameCall c c') (hkicks : c.board.kicks ≤ c'.board.kicks)
    (hrunning : ∀ j ∈ c'.board.running, j ∈ c.board.running ∨ c.board.kicks ≤ j.serial)
    (hended : c'.OwnEnded → c'.board.factBy = c.own) : CallInv factorial c' where
  board := hboard
  jobs := hjobs
  own := by
    rw [hsame.inFactorial, hsame.own, hsame.input]
    exact h.own
  woken := by
    intro j hj
    rw [hsame.wokenBy] at hj
    obtain ⟨hserial, hnot⟩ := h.woken j hj
    refine ⟨hserial.trans_le hkicks, fun hmem => ?_⟩
    rcases hrunning j hmem with hold | hnew
    · exact hnot hold
    · exact absurd hserial (not_lt.mpr hnew)
  ended := by
    rw [hsame.own]
    exact hended
  wake := by
    rw [hsame.pc, hsame.done, hsame.wokenBy, hsame.own]
    exact h.wake

theorem wokenBy_keeps (he : e ≠ .irqPost) : (callerStep factorial c e).wokenBy = c.wokenBy :=
  if_neg fun h => he (done_rises h.1 h.2)

/-! ### The device -/

theorem kick_call (h : CallInv factorial c) (cmd : Cmd) (he : Undisturbed c (.kick cmd)) :
    CallInv factorial (callerStep factorial c (.kick cmd)) := by
  have hboard : (callerStep factorial c (.kick cmd)).board =
      { c.board.kickStep cmd with sys := c.board.sys } := rfl
  have hsame : SameCall c (callerStep factorial c (.kick cmd)) :=
    ⟨rfl, rfl, rfl, rfl, wokenBy_keeps (by simp)⟩
  rcases kickStep_cases c.board cmd with hstay | ⟨hmem, hbegin⟩
  · rw [hstay] at hboard
    refine h.device (h.board.step _) (h.jobs.step _) hsame (by rw [hboard]) ?_ ?_
    · rw [hboard]
      exact fun j hj => .inl hj
    · rw [Caller.OwnEnded, hsame.inFactorial, hsame.own, hboard]
      exact h.ended
  · rw [hbegin] at hboard
    refine h.device (h.board.step _) (h.jobs.step _) hsame ?_ ?_ ?_
    · rw [hboard]
      exact Nat.le_succ _
    · rw [hboard]
      intro j hj
      rcases List.mem_append.mp hj with hj | hj
      · exact .inl hj
      · rw [List.mem_singleton.mp hj]
        exact .inr (le_refl _)
    · rintro ⟨hin, hnone⟩
      rw [hboard] at hnone
      have hended : c.OwnEnded := ⟨hsame.inFactorial.mp hin,
        fun j hj => hnone j (List.mem_append_left _ hj)⟩
      rw [hboard, workOf, if_neg (he hended hmem)]
      exact h.ended hended

theorem finish_call (h : CallInv factorial c) (j : Job) (he : Undisturbed c (.finish j)) :
    CallInv factorial (callerStep factorial c (.finish j)) := by
  have hboard : (callerStep factorial c (.finish j)).board =
      { (if j ∈ c.board.running then c.board.finish factorial j else c.board) with
        sys := c.board.sys } := rfl
  have hsame : SameCall c (callerStep factorial c (.finish j)) :=
    ⟨rfl, rfl, rfl, rfl, wokenBy_keeps (by simp)⟩
  by_cases hj : j ∈ c.board.running
  · rw [if_pos hj] at hboard
    have hrunning : (callerStep factorial c (.finish j)).board.running = c.board.running.erase j := by
      rw [hboard, Board.finish]
      cases j.work <;> rfl
    refine h.device (h.board.step _) (h.jobs.step _) hsame ?_ ?_ ?_
    · rw [hboard, Board.finish]
      cases j.work <;> exact le_refl _
    · rw [hrunning]
      exact fun k hk => .inl (List.mem_of_mem_erase hk)
    · rintro ⟨hin, hnone⟩
      rw [hsame.inFactorial] at hin
      rw [hrunning, hsame.own] at hnone
      by_cases hown : c.own = some j
      · -- The caller's own job ends, and leaves its result.
        obtain ⟨n, hn⟩ := h.own hin
        obtain rfl := Option.some.inj (hown.symm.trans hn)
        rw [hboard, hown]
        rfl
      · have hended : c.OwnEnded := by
          refine ⟨hin, fun k hk hk' => ?_⟩
          by_cases hkj : k = j
          · exact hown (hkj ▸ hk')
          · exact hnone k ((List.mem_erase_of_ne hkj).mpr hk) hk'
        have hdma := he hended hj
        rw [hboard, Board.finish, hdma]
        exact h.ended hended
  · rw [if_neg hj] at hboard
    refine h.device (h.board.step _) (h.jobs.step _) hsame (by rw [hboard]) ?_ ?_
    · rw [hboard]
      exact fun k hk => .inl hk
    · rw [Caller.OwnEnded, hsame.inFactorial, hsame.own, hboard]
      exact h.ended

theorem enter_call (h : CallInv factorial c) :
    CallInv factorial (callerStep factorial c .irqEnter) := by
  have hboard : (callerStep factorial c .irqEnter).board =
      { c.board.enterStep with sys := c.board.sys } := rfl
  have hsame : SameCall c (callerStep factorial c .irqEnter) :=
    ⟨rfl, rfl, rfl, rfl, wokenBy_keeps (by simp)⟩
  have hdevice : c.board.enterStep.kicks = c.board.kicks ∧
      c.board.enterStep.running = c.board.running ∧ c.board.enterStep.factBy = c.board.factBy := by
    unfold Board.enterStep
    split_ifs
    · exact ⟨rfl, rfl, rfl⟩
    · exact ⟨rfl, rfl, rfl⟩
  obtain ⟨hkicks, hrunning, hfact⟩ := hdevice
  refine h.device (h.board.step _) (h.jobs.step _) hsame ?_ ?_ ?_
  · rw [hboard, hkicks]
  · rw [hboard, hrunning]
    exact fun j hj => .inl hj
  · rw [Caller.OwnEnded, hsame.inFactorial, hsame.own, hboard, hrunning, hfact]
    exact h.ended

/-! ### The handler -/

theorem irq_keeps (s : Sys) (stat fact : BitVec 32) :
    (step s (.irq stat fact)).pc = s.pc ∧
      (step s (.irq stat fact)).dev.lastFactIn = s.dev.lastFactIn := by
  generalize hs' : Edu.step s (.irq stat fact) = s'
  have hflow : Flow s (.irq stat fact) s' := hs' ▸ step_flow s (.irq stat fact)
  cases hflow with
  | stays _ _ hpc hsame => exact ⟨hpc, hsame.input⟩
  | signalled _ _ _ _ hpc _ hinput => exact ⟨hpc, hinput⟩
  | leg _ _ hirq _ _ | ended _ _ hirq _ _ => exact absurd rfl (hirq stat fact)

/-- The end of a handler's run, as the caller sees it. -/
structure HandlerEnds (c : Caller) (js : List Job) (c' : Caller) : Prop where
  pc : c'.board.sys.pc = c.board.sys.pc
  input : c'.board.sys.dev.lastFactIn = c.board.sys.dev.lastFactIn
  done : c'.board.sys.dev.irqDone = true
  own : c'.own = c.own
  wokenBy : c'.wokenBy = if c.board.sys.dev.irqDone = false then js else c.wokenBy
  handler : c'.board.handler = none
  kicks : c'.board.kicks = c.board.kicks
  running : c'.board.running = c.board.running
  irqStat : c'.board.irqStat = c.board.irqStat
  factBy : c'.board.factBy = c.board.factBy

theorem handler_ends (h : BoardInv factorial c.board) {stat : BitVec 32} {js : List Job}
    (hhandler : c.board.handler = some (stat, js)) :
    HandlerEnds c js (callerStep factorial c .irqPost) := by
  have hsys : (callerStep factorial c .irqPost).board.sys =
      Edu.step c.board.sys (.irq stat c.board.regFact) := driverStep_post hhandler
  have hpost : c.board.postStep = { c.board with
      handler := none
      raised := if firstInflight c.board.sys.dev = none then c.board.raised
        else c.board.raised ++ [js] } := by
    simp only [Board.postStep, hhandler]
  have hboard : (callerStep factorial c .irqPost).board =
      { c.board.postStep with sys := c.board.driverStep .irqPost } := rfl
  obtain ⟨hpc, hinput⟩ := irq_keeps c.board.sys stat c.board.regFact
  have hdone : (boardStep factorial c.board .irqPost).sys.dev.irqDone = true :=
    irqPost_done h hhandler
  rw [hpost] at hboard
  refine ⟨hsys ▸ hpc, hsys ▸ hinput, hdone, rfl, ?_, by rw [hboard], by rw [hboard], by rw [hboard],
    by rw [hboard], by rw [hboard]⟩
  simp only [callerStep, hdone, and_true, Board.reported, handled_eq hhandler]

theorem handler_absent (hhandler : c.board.handler = none) : callerStep factorial c .irqPost = c := by
  have hboard : (callerStep factorial c .irqPost).board = c.board := by
    have hdevice : c.board.postStep = c.board := by simp [Board.postStep, hhandler]
    have hsys : c.board.driverStep .irqPost = c.board.sys :=
      driverStep_none (by simp [Board.seen, hhandler])
    simp only [callerStep, boardStep, Board.deviceStep, hdevice, hsys]
  have hhandled : (callerStep factorial c .irqPost).handled =
      (c.handled || c.board.handled.any fun j => c.own == some j) := rfl
  have hwoken : (callerStep factorial c .irqPost).wokenBy = c.wokenBy := by
    refine if_neg fun hdone => ?_
    have hsame : (boardStep factorial c.board .irqPost).sys.dev.irqDone = c.board.sys.dev.irqDone :=
      congrArg (fun b => b.sys.dev.irqDone) hboard
    rw [hsame, hdone.1] at hdone
    cases hdone.2
  refine Caller.ext hboard rfl ?_ hwoken
  rw [hhandled, Board.handled, hhandler, List.any_nil, Bool.or_false]

theorem post_call (h : CallInv factorial c) (he : Undisturbed c .irqPost) :
    CallInv factorial (callerStep factorial c .irqPost) := by
  cases hhandler : c.board.handler with
  | none =>
    rw [handler_absent hhandler]
    exact h
  | some handled =>
    obtain ⟨stat, js⟩ := handled
    have hends := handler_ends h.board hhandler
    have hin : (callerStep factorial c .irqPost).InFactorial ↔ c.InFactorial := by
      rw [Caller.InFactorial, Caller.InFactorial, hends.pc]
    refine ⟨h.board.step _, h.jobs.step _, ?_, ?_, ?_, ?_⟩
    · rw [hin, hends.own, hends.input]
      exact h.own
    · rw [hends.wokenBy, hends.kicks, hends.running]
      split_ifs
      · exact fun j hj => ⟨h.jobs.kicked j (handled_mem_jobs hhandler hj),
          h.jobs.handled_not_running hhandler hj⟩
      · exact h.woken
    · rw [Caller.OwnEnded, hin, hends.own, hends.running, hends.factBy]
      exact h.ended
    · rw [hends.pc, hends.own, hends.wokenBy]
      intro hwaiting _
      split_ifs with hidle
      · exact he hwaiting hidle stat js hhandler
      · exact h.wake hwaiting (Bool.eq_true_of_not_eq_false hidle)

/-! ### The driver -/

theorem driver_kicks {e : Event} {w : Work} (h : c.board.legacyKick (.driver e) = some w) :
    (c.board.driverStep (.driver e)).pc.kicked = true ∧
      ((c.board.driverStep (.driver e)).pc = .factorialKicked →
        w = .factorial (c.board.driverStep (.driver e)).dev.lastFactIn) := by
  cases e with
  | factorial input =>
    obtain ⟨hpc, hw⟩ := Option.ite_none_right_eq_some.mp h
    have hsys : c.board.driverStep (.driver (.factorial input)) =
        { c.board.sys with
          dev := (factorialStart c.board.sys.dev input).1
          pc := .factorialKicked } := if_pos hpc
    rw [hsys]
    exact ⟨rfl, fun _ => (Option.some.inj hw).symm⟩
  | dmaTest =>
    obtain ⟨hpc, hw⟩ := Option.ite_none_right_eq_some.mp h
    have hsys : c.board.driverStep (.driver .dmaTest) =
        { c.board.sys with dev := (dmaTestStart c.board.sys.dev).1, pc := .firstKicked } := if_pos hpc
    rw [hsys]
    exact ⟨rfl, fun hpc' => by cases hpc'⟩
  | wake fact =>
    obtain ⟨⟨hdone, hpc⟩, hw⟩ := Option.ite_none_right_eq_some.mp h
    have hsys : c.board.driverStep (.driver (.wake fact)) =
        { c.board.sys with dev := (dmaTestReadBack c.board.sys.dev).1, pc := .secondKicked } := by
      have hwake : c.board.driverStep (.driver (.wake fact)) =
          c.board.sys.wakeStep c.board.regFact := rfl
      rw [hwake, Sys.wakeStep, if_pos hdone, hpc]
    rw [hsys]
    exact ⟨rfl, fun hpc' => by cases hpc'⟩
  | «open» | submit | irq | pollCq | arm | timeout | dmaWrite | setEventfd | resetStats => cases h

/-- Without a kick, a factorial under way was so before, and a wait that is over was. -/
theorem driver_quiet (factorial : BitVec 32 → BitVec 32) {e : Event}
    (h : c.board.legacyKick (.driver e) = none) :
    ((callerStep factorial c (.driver e)).InFactorial → c.InFactorial ∧
        (callerStep factorial c (.driver e)).board.sys.dev.lastFactIn =
          c.board.sys.dev.lastFactIn) ∧
      ((callerStep factorial c (.driver e)).board.sys.pc = .factorialWaiting →
        (callerStep factorial c (.driver e)).board.sys.dev.irqDone = true →
        c.board.sys.pc = .factorialWaiting) := by
  have hsys : (callerStep factorial c (.driver e)).board.sys =
      c.board.driverStep (.driver e) := rfl
  rw [Caller.InFactorial, hsys]
  cases hseen : c.board.seen (.driver e) with
  | none =>
    rw [driverStep_none hseen]
    exact ⟨fun hin => ⟨hin, rfl⟩, fun hpc _ => hpc⟩
  | some e' =>
    rw [driverStep_some hseen]
    generalize hs' : Edu.step c.board.sys e' = s'
    have hflow : Flow c.board.sys e' s' := hs' ▸ step_flow c.board.sys e'
    cases hflow with
    | stays _ _ hpc hsame =>
      rw [hpc, hsame.input]
      exact ⟨fun hin => ⟨hin, rfl⟩, fun hpc' _ => hpc'⟩
    | signalled _ _ _ _ hpc _ hinput =>
      rw [hpc, hinput]
      exact ⟨fun hin => ⟨hin, rfl⟩, fun hpc' _ => hpc'⟩
    | started input hidle =>
      cases BoardEvent.driver.inj (seen_driver hseen (by simp) (by simp))
      have hkick : c.board.legacyKick (.driver (.factorial input)) = some (.factorial input) :=
        if_pos hidle
      rw [h] at hkick
      cases hkick
    | leg _ _ _ hpc _ => rcases hpc with hpc | hpc <;> simp [hpc]
    | armed hkicked =>
      refine ⟨?_, fun _ hdone => by cases hdone⟩
      rw [Caller.InFactorial]
      intro hin
      refine ⟨?_, rfl⟩
      cases hpc : c.board.sys.pc <;> simp [hpc, LegacyPc.armed, LegacyPc.kicked] at hin hkicked ⊢
    | ended _ _ _ hpc _ => simp [hpc]

/-- A call that kicks the device has a new job of its own, which has woken nobody yet. -/
theorem kicks_call (h : CallInv factorial c) {e : Event} {w : Work}
    (hkick : c.board.legacyKick (.driver e) = some w) :
    CallInv factorial (callerStep factorial c (.driver e)) := by
  have hwoken : (callerStep factorial c (.driver e)).wokenBy = c.wokenBy := wokenBy_keeps (by simp)
  have hboard : (callerStep factorial c (.driver e)).board =
      { c.board.kernelStep e with sys := c.board.driverStep (.driver e) } := rfl
  have hown : (callerStep factorial c (.driver e)).own = some ⟨c.board.kicks, .legacy, w⟩ := by
    simp only [callerStep, Caller.ownStep, hkick]
  obtain ⟨hkicked, hinput⟩ := driver_kicks hkick
  rw [kernelStep_kicks hkick] at hboard
  refine ⟨h.board.step _, h.jobs.step _, ?_, ?_, ?_, ?_⟩
  · rw [Caller.InFactorial, hown, hboard]
    rintro (hpc | hpc)
    · exact ⟨c.board.kicks, by rw [hinput hpc]⟩
    · rw [hpc] at hkicked
      cases hkicked
  · rw [hwoken, hboard]
    intro j hj
    obtain ⟨hserial, hnot⟩ := h.woken j hj
    refine ⟨hserial.trans (Nat.lt_succ_self _), fun hmem => ?_⟩
    rcases List.mem_append.mp hmem with hold | hnew
    · exact hnot hold
    · rw [List.mem_singleton.mp hnew] at hserial
      exact lt_irrefl _ hserial
  · rintro ⟨-, hnone⟩
    rw [hboard] at hnone
    exact absurd hown (hnone _ (List.mem_append_right _ (List.mem_singleton_self _)))
  · rw [hboard]
    intro hpc
    rw [hpc] at hkicked
    cases hkicked

theorem quiet_call (h : CallInv factorial c) {e : Event}
    (hkick : c.board.legacyKick (.driver e) = none) :
    CallInv factorial (callerStep factorial c (.driver e)) := by
  have hwoken : (callerStep factorial c (.driver e)).wokenBy = c.wokenBy := wokenBy_keeps (by simp)
  have hboard : (callerStep factorial c (.driver e)).board =
      { c.board.kernelStep e with sys := c.board.driverStep (.driver e) } := rfl
  have hown : (callerStep factorial c (.driver e)).own = c.own := by
    simp only [callerStep, Caller.ownStep, hkick]
  obtain ⟨unkicked, raised, hstep⟩ := kernelStep_quiet hkick
  obtain ⟨hin, hwaiting⟩ := driver_quiet factorial hkick
  rw [hstep] at hboard
  refine ⟨h.board.step _, h.jobs.step _, ?_, ?_, ?_, ?_⟩
  · intro hin'
    obtain ⟨hin', hinput⟩ := hin hin'
    rw [hown, hinput]
    exact h.own hin'
  · rw [hwoken, hboard]
    exact h.woken
  · rintro ⟨hin', hnone⟩
    rw [hboard, hown] at hnone
    rw [hown, hboard]
    exact h.ended ⟨(hin hin').1, hnone⟩
  · intro hpc hdone
    have hbefore : c.board.sys.dev.irqDone = true := by
      by_contra hidle
      cases done_rises (Bool.eq_false_iff.mpr hidle) hdone
    rw [hwoken, hown]
    exact h.wake (hwaiting hpc hdone) hbefore

theorem driver_call (h : CallInv factorial c) (e : Event) :
    CallInv factorial (callerStep factorial c (.driver e)) := by
  cases hkick : c.board.legacyKick (.driver e) with
  | some w => exact kicks_call h hkick
  | none => exact quiet_call h hkick

theorem CallInv.step (h : CallInv factorial c) (he : Undisturbed c e) :
    CallInv factorial (callerStep factorial c e) := by
  cases e with
  | driver e => exact driver_call h e
  | kick cmd => exact kick_call h cmd he
  | finish j => exact finish_call h j he
  | irqEnter => exact enter_call h
  | irqPost => exact post_call h he

theorem CallInv.returnsOwn (h : CallInv factorial c) (e : BoardEvent) :
    ReturnsOwn factorial c e := by
  cases e with
  | kick | finish | irqEnter | irqPost => trivial
  | driver e =>
    cases e with
    | wake fact =>
      intro hpc hdone
      obtain ⟨j, hj, hown⟩ := h.wake hpc hdone
      obtain ⟨n, hn⟩ := h.own (.inr hpc)
      have hwork : j.work = .factorial c.board.sys.dev.lastFactIn := by
        rw [Option.some.inj (hown.symm.trans hn)]
      have hended : c.OwnEnded := by
        refine ⟨.inr hpc, fun k hk hk' => (h.woken j hj).2 ?_⟩
        rwa [Option.some.inj (hown.symm.trans hk')]
      have hfactBy : c.board.factBy = some j := (h.ended hended).trans hown
      obtain ⟨⟨m, hm, hfact⟩, -⟩ := h.board.fact j hfactBy
      have hstep : c.board.driverStep (.driver (.wake fact)) =
          c.board.sys.wakeStep c.board.regFact := rfl
      refine ⟨j, hj, hown, hwork, hfactBy, ?_⟩
      rw [hstep, Sys.wakeStep, if_pos hdone, hpc, ← Work.factorial.inj (hm.symm.trans hwork)]
      exact hfact
    | «open» | submit | irq | pollCq | factorial | dmaTest | arm | timeout | dmaWrite | setEventfd
    | resetStats => trivial

/-! ## What a disturbance can lead to -/

/-- `REG_FACT` has a result that is not the caller's, and the device has something to report. -/
structure Stolen (c : Caller) : Prop where
  inFactorial : c.InFactorial
  factBy : c.board.factBy ≠ c.own
  irqStat : c.board.irqStat ≠ 0

theorem finish_steals (factorial : BitVec 32 → BitVec 32) {j : Job} {n : BitVec 32}
    (hin : c.InFactorial) (hj : j ∈ c.board.running) (hwork : j.work = .factorial n)
    (hown : c.own ≠ some j) : Stolen (callerStep factorial c (.finish j)) := by
  have hboard : (callerStep factorial c (.finish j)).board =
      { (if j ∈ c.board.running then c.board.finish factorial j else c.board) with
        sys := c.board.sys } := rfl
  rw [if_pos hj, Board.finish, hwork] at hboard
  have hfactBy : (callerStep factorial c (.finish j)).board.factBy = some j := by rw [hboard]
  refine ⟨hin, fun hsame => hown (hsame.symm.trans hfactBy), ?_⟩
  rw [hboard]
  exact fun hzero => absurd (BitVec.or_eq_zero_iff.mp hzero).2 (by simp [Work.irqBit])

/-- A command that writes `REG_FACT` after the caller's own job has ended ends before the wait does. -/
theorem kick_steals (h : CallInv factorial c) (hin : c.InFactorial) {cmd : Cmd}
    (hmem : cmd ∈ c.board.unkicked) (hop : cmd.req.opcode = eduOpFactorial) :
    ∃ j, Stolen (callerStep factorial (callerStep factorial c (.kick cmd)) (.finish j)) := by
  have hkick : kickWrites c.board.sys.dev cmd.req = .ok _ := if_pos hop
  have hwork : workOf cmd.req = .factorial cmd.req.operand := if_pos hop
  have hboard : (callerStep factorial c (.kick cmd)).board =
      { c.board.kickStep cmd with sys := c.board.sys } := rfl
  rw [kickStep_begins _ hmem hkick, hwork] at hboard
  refine ⟨⟨c.board.kicks, .ring cmd, .factorial cmd.req.operand⟩,
    finish_steals factorial ?_ ?_ rfl fun hown => ?_⟩
  · rw [Caller.InFactorial, hboard]
    exact hin
  · rw [hboard]
    exact List.mem_append_right _ (List.mem_singleton_self _)
  · obtain ⟨n, hn⟩ := h.own hin
    have hsource := congrArg (Option.map Job.source) (hn.symm.trans hown)
    cases hsource

theorem wake_returns_wrong (hpc : c.board.sys.pc = .factorialWaiting)
    (hdone : c.board.sys.dev.irqDone = true) (hfact : c.board.factBy ≠ c.own) :
    ¬ ReturnsOwn factorial c (.driver (.wake 0)) := by
  intro hreturns
  obtain ⟨j, -, hown, -, hfactBy, -⟩ := hreturns hpc hdone
  exact hfact (hfactBy.trans hown.symm)

theorem arm_waits (factorial : BitVec 32 → BitVec 32) (hin : c.InFactorial) :
    (callerStep factorial c (.driver .arm)).board.sys.pc = .factorialWaiting := by
  have hsys : (callerStep factorial c (.driver .arm)).board.sys = c.board.sys.armStep := rfl
  rw [hsys]
  rcases hin with hpc | hpc
  · rw [armStep_kicked _ (by rw [hpc]; rfl), hpc]
    rfl
  · rw [armStep_other _ (by rw [hpc]; simp [LegacyPc.kicked]), hpc]

theorem stolen_post (h : Stolen c) (hinv : BoardInv factorial c.board) :
    Stolen (callerStep factorial c .irqPost) ∧
      (callerStep factorial c .irqPost).board.handler = none ∧
      (callerStep factorial c .irqPost).board.sys.pc = c.board.sys.pc := by
  cases hhandler : c.board.handler with
  | none =>
    rw [handler_absent hhandler]
    exact ⟨h, hhandler, rfl⟩
  | some handled =>
    obtain ⟨stat, js⟩ := handled
    have hends := handler_ends hinv hhandler
    refine ⟨⟨?_, ?_, ?_⟩, hends.handler, hends.pc⟩
    · rw [Caller.InFactorial, hends.pc]
      exact h.inFactorial
    · rw [hends.factBy, hends.own]
      exact h.factBy
    · rw [hends.irqStat]
      exact h.irqStat

theorem stolen_wakes (h : Stolen c) (hinv : BoardInv factorial c.board)
    (hpc : c.board.sys.pc = .factorialWaiting) (hhandler : c.board.handler = none) :
    ¬ Along (callerStep factorial) (ReturnsOwn factorial) c
      [.irqEnter, .irqPost, .driver (.wake 0)] := by
  rintro ⟨-, -, hreturns, -⟩
  have henter : (callerStep factorial c .irqEnter).board.handler =
      some (c.board.irqStat, c.board.finished) ∧
        (callerStep factorial c .irqEnter).board.factBy = c.board.factBy := by
    have hboard : (callerStep factorial c .irqEnter).board =
        { c.board.enterStep with sys := c.board.sys } := rfl
    rw [hboard, Board.enterStep, if_pos ⟨hhandler, h.irqStat⟩]
    exact ⟨rfl, rfl⟩
  have hends := handler_ends (hinv.step .irqEnter) henter.1
  refine wake_returns_wrong (hends.pc.trans hpc) hends.done ?_ hreturns
  rw [hends.factBy, hends.own, henter.2]
  exact h.factBy

def wrongReturn : List BoardEvent :=
  [.driver .arm, .irqPost, .irqEnter, .irqPost, .driver (.wake 0)]

theorem stolen_returns (h : Stolen c) (hinv : BoardInv factorial c.board) :
    ¬ Along (callerStep factorial) (ReturnsOwn factorial) c wrongReturn := by
  have hpc := arm_waits factorial h.inFactorial
  have harmed : Stolen (callerStep factorial c (.driver .arm)) := ⟨.inr hpc, h.factBy, h.irqStat⟩
  have hinv' := hinv.step (.driver .arm)
  obtain ⟨hposted, hhandler, hpc'⟩ := stolen_post harmed hinv'
  exact fun hall =>
    stolen_wakes hposted (hinv'.step .irqPost) (hpc'.trans hpc) hhandler hall.2.2

theorem disturbed_returns (h : CallInv factorial c) (he : ¬ Undisturbed c e) :
    ∃ rest, ¬ Along (callerStep factorial) (ReturnsOwn factorial) c (e :: rest) := by
  cases e with
  | driver | irqEnter => exact absurd trivial he
  | irqPost =>
    simp only [Undisturbed, not_forall] at he
    obtain ⟨hpc, hidle, stat, js, hhandler, hforeign⟩ := he
    refine ⟨[.driver (.wake 0)], fun hall => hforeign ?_⟩
    have hends := handler_ends h.board hhandler
    obtain ⟨j, hj, hown, -⟩ := hall.2.1 (hends.pc.trans hpc) hends.done
    rw [hends.wokenBy, if_pos hidle] at hj
    exact ⟨j, hj, hown⟩
  | finish j =>
    simp only [Undisturbed, not_forall] at he
    obtain ⟨hended, hj, hwork⟩ := he
    cases hj' : j.work with
    | dma => exact absurd hj' hwork
    | factorial n =>
      have hsteals := finish_steals factorial hended.1 hj hj' (hended.2 j hj)
      exact ⟨wrongReturn, fun hall => stolen_returns hsteals (h.board.step _) hall.2⟩
  | kick cmd =>
    simp only [Undisturbed, not_forall, not_not] at he
    obtain ⟨hended, hmem, hop⟩ := he
    obtain ⟨j, hsteals⟩ := kick_steals h hended.1 hmem hop
    have hinv := (h.board.step (.kick cmd)).step (.finish j)
    exact ⟨.finish j :: wrongReturn, fun hall => stolen_returns hsteals hinv hall.2.2⟩

end

/-- **`edu_run_factorial` returns its own result** in every run in which nobody else ends its wait
or gets to `REG_FACT` before it. The first disturbance of a run can lead to a wrong return. -/
theorem factorial_returns_own (factorial : BitVec 32 → BitVec 32) (d : EduDev) (fact : BitVec 32)
    (evs : List BoardEvent) :
    (Along (callerStep factorial) Undisturbed (.powered d fact) evs →
        Along (callerStep factorial) (ReturnsOwn factorial) (.powered d fact) evs) ∧
      ∀ e, Along (callerStep factorial) Undisturbed (.powered d fact) evs →
        ¬ Undisturbed (run (callerStep factorial) (.powered d fact) evs) e →
          ∃ rest, ¬ Along (callerStep factorial) (ReturnsOwn factorial) (.powered d fact)
            (evs ++ e :: rest) := by
  have hinv : Along (callerStep factorial) Undisturbed (.powered d fact) evs →
      Always (callerStep factorial) (CallInv factorial) (.powered d fact) evs :=
    Always.of_step (fun _ _ hc he => hc.step he) (callInv_powered d fact)
  refine ⟨fun h => ?_, fun e h he => ?_⟩
  · exact Along.of_always (hinv h) h fun _ e hc _ => hc.returnsOwn e
  · obtain ⟨rest, hrest⟩ := disturbed_returns (hinv h).last he
    refine ⟨rest, fun hall => hrest ?_⟩
    exact ((along_append _).mp hall).2

/-- A factorial of 5 with nobody else on the device. -/
theorem factorial_returns_own_alone :
    let evs : List BoardEvent := [.driver (.factorial 5), .driver .arm,
      .finish ⟨0, .legacy, .factorial 5⟩, .irqEnter, .irqPost, .driver (.wake 0)]
    let c := Caller.powered freshDev 0
    Along (callerStep factorial32) Undisturbed c evs ∧
      Along (callerStep factorial32) (ReturnsOwn factorial32) c evs ∧
      (run (callerStep factorial32) c evs).board.sys.dev.lastFactOut = 120 := by
  intro evs c
  have hundisturbed : Along (callerStep factorial32) Undisturbed c evs := by
    refine ⟨trivial, trivial, ?_, trivial, ?_, trivial, trivial⟩
    · rintro ⟨-, hnone⟩
      exact absurd rfl (hnone ⟨0, .legacy, .factorial 5⟩ (by decide))
    · intro _ _ stat js hhandler
      have hhandler' : (run (callerStep factorial32) c (evs.take 4)).board.handler =
          some (0x001, [⟨0, .legacy, .factorial 5⟩]) := by decide
      obtain ⟨-, rfl⟩ := Prod.mk.inj (Option.some.inj (hhandler'.symm.trans hhandler))
      exact ⟨_, List.mem_singleton_self _, rfl⟩
  exact ⟨hundisturbed, (factorial_returns_own factorial32 freshDev 0 evs).1 hundisturbed, by decide⟩

/-- The interrupt for a factorial of 6 comes after its time is over, and ends the wait of the next
call. That one asked for 5 and gets 720, while its own write is still on the device. -/
theorem late_interrupt_returns_wrong :
    let evs : List BoardEvent := [.driver (.factorial 6), .driver .arm, .driver .timeout,
      .driver (.factorial 5), .driver .arm, .finish ⟨0, .legacy, .factorial 6⟩, .irqEnter, .irqPost]
    let c := run (callerStep factorial32) (.powered freshDev 0) evs
    ¬ ReturnsOwn factorial32 c (.driver (.wake 0)) ∧ waitResult c.board.sys.dev = .ok () ∧
      c.own = some ⟨1, .legacy, .factorial 5⟩ ∧ c.board.running = [⟨1, .legacy, .factorial 5⟩] ∧
      (callerStep factorial32 c (.driver (.wake 0))).board.sys.dev.lastFactOut = 720 := by
  intro evs c
  have hown : c.own = some ⟨1, .legacy, .factorial 5⟩ := by decide
  have hwoken : c.wokenBy = [⟨0, .legacy, .factorial 6⟩] := by decide
  refine ⟨fun hreturns => ?_, by decide, hown, by decide, by decide⟩
  obtain ⟨j, hj, hown', -⟩ := hreturns (by decide) (by decide)
  rw [hwoken, List.mem_singleton] at hj
  rw [hown, hj] at hown'
  exact absurd hown' (by decide)

end PcieDriver.Edu
