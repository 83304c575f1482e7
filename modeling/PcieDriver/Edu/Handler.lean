import PcieDriver.Edu.Jobs

/-!
# The handler, access by access

`Board` runs the handler in two steps. `edu_irq_handler` has four: it reads `REG_IRQ_STAT`, writes what
it read to `REG_IRQ_ACK`, retires a slot under `ring_lock`, and wakes the legacy waiters after that.
Here anything may come between them.
-/

open Base

namespace PcieDriver.Edu

/-! ## The pieces of the handler -/

/-- What the handler notes when it has acknowledged. -/
def irqAcknowledge (e : EduDev) (irqStat : BitVec 32) : EduDev :=
  { e with lastIrq := irqStat, statIrqTotal := e.statIrqTotal + 1 }

/-- The scan under `ring_lock`, with the signal that follows it. -/
def irqScan (e : EduDev) (fact : BitVec 32) : EduDev :=
  match firstInflight e with
  | none => e
  | some i => postCompletion e i fact

/-- `complete_all`. -/
def completeAll (e : EduDev) : EduDev := { e with irqDone := true }

theorem irqHandler_pieces (e : EduDev) {irqStat : BitVec 32} (hstat : irqStat ≠ 0)
    (fact : BitVec 32) :
    (eduIrqHandler e irqStat fact).1 = completeAll (irqScan (irqAcknowledge e irqStat) fact) := by
  have hsame : firstInflight (irqAcknowledge e irqStat) = firstInflight e := rfl
  unfold irqScan
  cases hfirst : firstInflight e with
  | none =>
    rw [irq_idle hstat hfirst, hsame, hfirst]
    rfl
  | some i =>
    rw [irq_posts hstat hfirst, hsame, hfirst]
    rfl

def Sys.scan (s : Sys) (fact : BitVec 32) : Sys :=
  match firstInflight s.dev with
  | none => s
  | some i =>
    { s with
      dev := irqScan s.dev fact
      posted := s.posted ++ [⟨s.owner i, completionOf s.dev i fact, fact⟩] }

theorem scan_none {s : Sys} {fact : BitVec 32} (h : firstInflight s.dev = none) : s.scan fact = s := by
  simp only [Sys.scan, h]

theorem scan_some {s : Sys} {i : Fin ringSize} {fact : BitVec 32} (h : firstInflight s.dev = some i) :
    s.scan fact =
      { s with
        dev := postCompletion s.dev i fact
        posted := s.posted ++ [⟨s.owner i, completionOf s.dev i fact, fact⟩] } := by
  simp only [Sys.scan, irqScan, h]

theorem OwnerInv.scan {s : Sys} (h : OwnerInv s) (fact : BitVec 32) : OwnerInv (s.scan fact) := by
  cases hfirst : firstInflight s.dev with
  | none =>
    rw [scan_none hfirst]
    exact h
  | some i =>
    have hwhole := h.step (.irq 1 fact)
    rw [step_irq_posts (by decide) hfirst] at hwhole
    rw [scan_some hfirst]
    exact hwhole.same {} (hwhole.ring.same {} fun _ => rfl)

theorem step_irq_pieces (s : Sys) {stat : BitVec 32} (hstat : stat ≠ 0) (fact : BitVec 32) :
    let s' := ({ s with dev := irqAcknowledge s.dev stat } : Sys).scan fact
    step s (.irq stat fact) = { s' with dev := completeAll s'.dev } := by
  have hsame : firstInflight (irqAcknowledge s.dev stat) = firstInflight s.dev := rfl
  unfold Sys.scan irqScan
  cases hfirst : firstInflight s.dev with
  | none =>
    simp only [step_irq_idle hstat hfirst, hsame, hfirst]
    rfl
  | some i =>
    simp only [step_irq_posts hstat hfirst, hsame, hfirst]
    rfl

/-! ## A board with such a handler -/

/-- `status` is what the handler has read and not acknowledged yet. Then `board.handler` has what it
acknowledged and the jobs whose bits that cleared, up to the end of the scan. After the scan
`complete_all` is owed. -/
structure FineBoard where
  board : Board
  status : Option (BitVec 32)
  owed : Bool

inductive FineEvent
  | driver (e : Event)
  | kick (c : Cmd)
  | finish (j : Job)
  | irqRead
  | irqAck
  | irqPost
  | irqComplete
  deriving DecidableEq

/-- The bits of `stat` report the end of the job. -/
def Job.ReportedBy (j : Job) (stat : BitVec 32) : Prop := j.work.irqBit &&& stat ≠ 0

instance (j : Job) (stat : BitVec 32) : Decidable (j.ReportedBy stat) :=
  inferInstanceAs (Decidable (_ ≠ _))

namespace FineBoard

/-- A handler that reads 0 returns at once. -/
def readStep (f : FineBoard) : FineBoard :=
  if f.status = none ∧ f.board.handler = none ∧ f.owed = false ∧ f.board.irqStat ≠ 0 then
    { f with status := some f.board.irqStat }
  else f

/-- The jobs that ended since the read are acknowledged with the others if they have the same bit. -/
def ackStep (f : FineBoard) : FineBoard :=
  match f.status with
  | some stat =>
    { f with
      status := none
      board := { f.board.writes .legacy [.writel stat eduRegIrqAck] with
        sys.dev := irqAcknowledge f.board.sys.dev stat
        handler := some (stat, f.board.finished.filter fun j => j.ReportedBy stat)
        finished := f.board.finished.filter fun j => ¬ j.ReportedBy stat } }
  | none => f

def postStep (f : FineBoard) : FineBoard :=
  match f.board.handler with
  | some _ =>
    { f with
      owed := true
      board := { f.board.postStep with sys := f.board.sys.scan f.board.regFact } }
  | none => f

def completeStep (f : FineBoard) : FineBoard :=
  if f.owed then { f with owed := false, board.sys.dev := completeAll f.board.sys.dev } else f

def powered (d : EduDev) (fact : BitVec 32) : FineBoard := ⟨.powered d fact, none, false⟩

end FineBoard

section
variable (factorial : BitVec 32 → BitVec 32)

def fineStep (f : FineBoard) : FineEvent → FineBoard
  | .driver e => { f with board := boardStep factorial f.board (.driver e) }
  | .kick c => { f with board := boardStep factorial f.board (.kick c) }
  | .finish j => { f with board := boardStep factorial f.board (.finish j) }
  | .irqRead => f.readStep
  | .irqAck => f.ackStep
  | .irqPost => f.postStep
  | .irqComplete => f.completeStep

end

/-! ## A handler that nothing interrupts -/

/-- Each job that is finished has its bit in `REG_IRQ_STAT`. -/
def Board.Reports (b : Board) : Prop := ∀ j ∈ b.finished, j.ReportedBy b.irqStat

section
variable {factorial : BitVec 32 → BitVec 32} {b : Board} {f : FineBoard} {stat : BitVec 32}

theorem ackStep_some (h : f.status = some stat) : f.ackStep =
    { f with
      status := none
      board := { f.board with
        sys := { f.board.sys with dev := irqAcknowledge f.board.sys.dev stat }
        irqStat := f.board.irqStat &&& ~~~stat
        handler := some (stat, f.board.finished.filter fun j => j.ReportedBy stat)
        finished := f.board.finished.filter fun j => ¬ j.ReportedBy stat } } := by
  rw [FineBoard.ackStep, h]
  rfl

theorem post_sys (factorial : BitVec 32 → BitVec 32) {js : List Job}
    (h : f.board.handler = some (stat, js)) :
    (fineStep factorial f .irqPost).board.sys = f.board.sys.scan f.board.regFact := by
  simp only [fineStep, FineBoard.postStep, h]

theorem Board.Reports.all (h : b.Reports) :
    b.finished.filter (fun j => j.ReportedBy b.irqStat) = b.finished :=
  List.filter_eq_self.mpr fun j hj => decide_eq_true (h j hj)

theorem Board.Reports.rest (h : b.Reports) :
    b.finished.filter (fun j => ¬ j.ReportedBy b.irqStat) = [] :=
  List.filter_eq_nil_iff.mpr fun j hj => by simpa using h j hj

/-- **The four steps without a pause are the two of the board.** -/
theorem four_steps (hreports : b.Reports) (hidle : b.handler = none) :
    run (fineStep factorial) ⟨b, none, false⟩ [.irqRead, .irqAck, .irqPost, .irqComplete] =
      ⟨run (boardStep factorial) b [.irqEnter, .irqPost], none, false⟩ := by
  by_cases hstat : b.irqStat = 0
  · have hread : FineBoard.readStep ⟨b, none, false⟩ = ⟨b, none, false⟩ := by
      simp [FineBoard.readStep, hstat]
    simp only [run_cons, run_nil, enter_idle (.inl hstat), post_idle hidle, fineStep, hread,
      FineBoard.ackStep, FineBoard.postStep, hidle, FineBoard.completeStep, Bool.false_eq_true, if_false]
  · have hread : FineBoard.readStep ⟨b, none, false⟩ = ⟨b, some b.irqStat, false⟩ :=
      if_pos ⟨rfl, hidle, rfl, hstat⟩
    have hack := ackStep_some (f := ⟨b, some b.irqStat, false⟩) rfl
    have henter : boardStep factorial b .irqEnter = { b.enterStep with sys := b.sys } := rfl
    rw [Board.enterStep, if_pos ⟨hidle, hstat⟩] at henter
    have hpost := step_irq_pieces b.sys hstat b.regFact
    simp only [run_cons, run_nil, fineStep, hread, hack, hreports.all, hreports.rest,
      FineBoard.postStep, FineBoard.completeStep, if_true, henter]
    simp only [boardStep, Board.deviceStep, Board.postStep, Board.driverStep, Board.seen, Option.map_some]
    exact congrArg (fun s => FineBoard.mk (Board.mk s _ _ _ _ _ _ _ _ _) none false) hpost.symm

theorem irqBit_or (w : Work) {stat : BitVec 32} (h : w.irqBit &&& stat ≠ 0) (bits : BitVec 32) :
    w.irqBit &&& (stat ||| bits) ≠ 0 := by
  intro hzero
  refine h (BitVec.eq_of_getLsbD_eq fun i hi => ?_)
  have hbit : (w.irqBit &&& (stat ||| bits)).getLsbD i = false := by
    rw [hzero]
    exact BitVec.getLsbD_zero
  refine Eq.trans ?_ BitVec.getLsbD_zero.symm
  simp only [BitVec.getLsbD_and, BitVec.getLsbD_or, Bool.and_eq_false_iff, Bool.or_eq_false_iff]
    at hbit ⊢
  exact hbit.imp_right And.left

theorem reports_finish (h : b.Reports) (j : Job) : (b.finish factorial j).Reports := by
  have hends := finish_ends factorial b j
  intro i hi
  rw [hends.finished, List.mem_append, List.mem_singleton] at hi
  rw [Job.ReportedBy, hends.irqStat]
  rcases hi with hi | rfl
  · exact irqBit_or _ (h i hi) _
  · rw [BitVec.or_comm]
    refine irqBit_or _ ?_ _
    rw [BitVec.and_self]
    exact irqBit_ne_zero i.work

theorem reports_step (h : b.Reports) (e : BoardEvent) : (boardStep factorial b e).Reports := by
  generalize hb' : b.deviceStep factorial e = b'
  have heff : DeviceEffect factorial b e b' := hb' ▸ device_effect factorial b e
  rw [boardStep, hb']
  cases heff with
  | opened | quiet | begun | posted => exact h
  | finished j => exact reports_finish h j
  | entered => exact List.forall_mem_nil _

/-! ### Whole runs -/

/-- A step of the machine when nothing interrupts the handler. -/
inductive WholeStep
  | driver (e : Event)
  | kick (c : Cmd)
  | finish (j : Job)
  | irq

def WholeStep.fine : WholeStep → List FineEvent
  | .driver e => [.driver e]
  | .kick c => [.kick c]
  | .finish j => [.finish j]
  | .irq => [.irqRead, .irqAck, .irqPost, .irqComplete]

def WholeStep.coarse : WholeStep → List BoardEvent
  | .driver e => [.driver e]
  | .kick c => [.kick c]
  | .finish j => [.finish j]
  | .irq => [.irqEnter, .irqPost]

theorem irqPost_handler (b : Board) : (boardStep factorial b .irqPost).handler = none := by
  show b.postStep.handler = none
  unfold Board.postStep
  split
  · rfl
  · assumption

theorem handler_kept {e : BoardEvent} (henter : e ≠ .irqEnter) (h : b.handler = none) :
    (boardStep factorial b e).handler = none := by
  generalize hb' : b.deviceStep factorial e = b'
  have heff : DeviceEffect factorial b e b' := hb' ▸ device_effect factorial b e
  rw [boardStep, hb']
  cases heff with
  | opened | quiet | begun => exact h
  | finished j => exact (finish_ends factorial b j).handler.trans h
  | entered => exact absurd rfl henter
  | posted => rfl

theorem whole_step (hreports : b.Reports) (hidle : b.handler = none) (w : WholeStep) :
    run (fineStep factorial) ⟨b, none, false⟩ w.fine =
        ⟨run (boardStep factorial) b w.coarse, none, false⟩ ∧
      (run (boardStep factorial) b w.coarse).Reports ∧
      (run (boardStep factorial) b w.coarse).handler = none := by
  cases w with
  | driver | kick | finish => exact ⟨rfl, reports_step hreports _, handler_kept (by simp) hidle⟩
  | irq => exact ⟨four_steps hreports hidle, reports_step (reports_step hreports _) _, irqPost_handler _⟩

/-- **The runs of the board in which nothing interrupts the handler are runs of this one.** -/
theorem whole_runs (hreports : b.Reports) (hidle : b.handler = none) (ws : List WholeStep) :
    run (fineStep factorial) ⟨b, none, false⟩ (ws.flatMap WholeStep.fine) =
      ⟨run (boardStep factorial) b (ws.flatMap WholeStep.coarse), none, false⟩ := by
  induction ws generalizing b with
  | nil => rfl
  | cons w ws ih =>
    obtain ⟨hstep, hreports', hidle'⟩ := whole_step hreports hidle w
    rw [List.flatMap_cons, List.flatMap_cons, run_append, run_append, hstep]
    exact ih hreports' hidle'

end

end PcieDriver.Edu
