import PcieDriver.Edu.Integrity
import Mathlib.Data.Nat.Factorial.Basic

/-!
# The driver and its device

The device is not in the repository. It works on every command that was kicked, finishes each once
at a time of its own, and then raises a bit in `REG_IRQ_STAT`. A submit claims its slot in one step
and kicks the device in a later one. The handler reads and acknowledges in one step and does the rest in
a later one. `Handler` takes these two apart.
-/

open Base

namespace PcieDriver.Edu

/-! ## The device -/

inductive Work
  | factorial (n : BitVec 32)
  | dma
  deriving DecidableEq

/-- The status bit that the device raises at the end. -/
def Work.irqBit : Work → BitVec 32
  | .factorial _ => 0x001
  | .dma => 0x100

theorem irqBit_ne_zero (w : Work) : w.irqBit ≠ 0 := by cases w <;> simp [Work.irqBit]

inductive Source
  | ring (c : Cmd)
  | legacy
  deriving DecidableEq

/-- A command that was kicked. `serial` counts the kicks. -/
structure Job where
  serial : Nat
  source : Source
  work : Work
  deriving DecidableEq

/-- The driver, its history and the device. `unkicked` are the accepted submits before their kick,
`finished` the jobs whose interrupt is not acknowledged, and `factBy` the job whose result
`REG_FACT` holds, if it holds one. `handler` is the status that the handler acknowledged and the
jobs that had raised it. `raised` has these jobs for each post. -/
structure Board where
  sys : Sys
  unkicked : List Cmd
  running : List Job
  finished : List Job
  kicks : Nat
  irqStat : BitVec 32
  regFact : BitVec 32
  factBy : Option Job
  handler : Option (BitVec 32 × List Job)
  raised : List (List Job)

/-- `driver` is any event of the driver but the handler's. -/
inductive BoardEvent
  | driver (e : Event)
  | kick (c : Cmd)
  | finish (j : Job)
  | irqEnter
  | irqPost
  deriving DecidableEq

namespace Board

/-- One register write, as the device takes it. -/
def write (src : Source) (b : Board) : MmioWrite → Board
  | .writel value reg =>
    if reg = eduRegFact then
      { b with
        running := b.running ++ [⟨b.kicks, src, .factorial value⟩]
        kicks := b.kicks + 1
        regFact := value
        factBy := none }
    else if reg = eduRegDmaCmd ∧ value &&& eduDmaCmdStart ≠ 0 then
      { b with running := b.running ++ [⟨b.kicks, src, .dma⟩], kicks := b.kicks + 1 }
    else if reg = eduRegIrqAck then { b with irqStat := b.irqStat &&& ~~~value }
    else b
  | .writeq _ _ => b

def writes (b : Board) (src : Source) (ws : List MmioWrite) : Board := ws.foldl (write src) b

/-- An event of the driver, with what it reads from `REG_FACT`. The handler is apart. -/
def reading (b : Board) : Event → Option Event
  | .irq _ _ => none
  | .wake _ => some (.wake b.regFact)
  | e => some e

def seen (b : Board) : BoardEvent → Option Event
  | .driver e => b.reading e
  | .irqPost => b.handler.map fun h => .irq h.1 b.regFact
  | .kick _ | .finish _ | .irqEnter => none

def driverStep (b : Board) (e : BoardEvent) : Sys :=
  match b.seen e with
  | some e => step b.sys e
  | none => b.sys

section
variable (factorial : BitVec 32 → BitVec 32)

/-- The end of a job. For a factorial the result is in `REG_FACT` when the bit is raised. -/
def finish (b : Board) (j : Job) : Board :=
  let b := { b with
    running := b.running.erase j
    finished := b.finished ++ [j]
    irqStat := b.irqStat ||| j.work.irqBit }
  match j.work with
  | .factorial n => { b with regFact := factorial n, factBy := some j }
  | .dma => b

def kickStep (b : Board) (c : Cmd) : Board :=
  if c ∈ b.unkicked then
    match kickWrites b.sys.dev c.req with
    | .ok ws => { b with unkicked := b.unkicked.erase c }.writes (.ring c) ws
    | .error _ => b
  else b

/-- The handler reads `REG_IRQ_STAT` and writes it back to `REG_IRQ_ACK`. -/
def enterStep (b : Board) : Board :=
  if b.handler = none ∧ b.irqStat ≠ 0 then
    { b.writes .legacy [.writel b.irqStat eduRegIrqAck] with
      handler := some (b.irqStat, b.finished)
      finished := [] }
  else b

def postStep (b : Board) : Board :=
  match b.handler with
  | some (_, js) =>
    { b with
      handler := none
      raised := if firstInflight b.sys.dev = none then b.raised else b.raised ++ [js] }
  | none => b

def submitStep (b : Board) (client : Nat) (req : EduSubmitReq) : Board :=
  if (eduRingSubmit b.sys.dev req).2.2 = .ok () then
    { b with unkicked := b.unkicked ++ [⟨b.sys.calls, client, req⟩] }
  else b

/-- The kick of a legacy ioctl, if it gets there. -/
def legacyStep (b : Board) (there : Bool) (ws : List MmioWrite) : Board :=
  if there then b.writes .legacy ws else b

def kernelStep (b : Board) : Event → Board
  | .open _ => { b with raised := [] }
  | .submit client req => b.submitStep client req
  | .factorial input => b.legacyStep (b.sys.pc = .idle) (factorialStart b.sys.dev input).2
  | .dmaTest => b.legacyStep (b.sys.pc = .idle) (dmaTestStart b.sys.dev).2
  | .wake _ =>
    b.legacyStep (b.sys.dev.irqDone ∧ b.sys.pc = .firstWaiting) (dmaTestReadBack b.sys.dev).2
  | _ => b

/-- What the event does beside the driver's own step. -/
def deviceStep (b : Board) : BoardEvent → Board
  | .driver e => b.kernelStep e
  | .kick c => b.kickStep c
  | .finish j => if j ∈ b.running then b.finish factorial j else b
  | .irqEnter => b.enterStep
  | .irqPost => b.postStep

end

/-- The first open, with nothing kicked. `fact` is what `REG_FACT` holds. -/
def powered (d : EduDev) (fact : BitVec 32) : Board where
  sys := start d
  unkicked := []
  running := []
  finished := []
  kicks := 0
  irqStat := 0
  regFact := fact
  factBy := none
  handler := none
  raised := []

end Board

def boardStep (factorial : BitVec 32 → BitVec 32) (b : Board) (e : BoardEvent) : Board :=
  { b.deviceStep factorial e with sys := b.driverStep e }

/-- The factorial in 32 bits. The runs on fixed inputs use it as the device's. -/
def factorial32 (n : BitVec 32) : BitVec 32 := BitVec.ofNat 32 n.toNat.factorial

/-! ## What a kick starts -/

def workOf (req : EduSubmitReq) : Work :=
  if req.opcode = eduOpFactorial then .factorial req.operand else .dma

/-- A job starts. The operand of a factorial overwrites `REG_FACT`. -/
def Board.begin (b : Board) (src : Source) (w : Work) : Board :=
  { b with
    running := b.running ++ [⟨b.kicks, src, w⟩]
    kicks := b.kicks + 1
    regFact := match w with
      | .factorial n => n
      | .dma => b.regFact
    factBy := match w with
      | .factorial _ => none
      | .dma => b.factBy }

section
variable (b : Board) (src : Source)

theorem writes_factorialStart (e : EduDev) (n : BitVec 32) :
    b.writes src (factorialStart e n).2 = b.begin src (.factorial n) := rfl

theorem writes_dmaTestStart (e : EduDev) :
    b.writes src (dmaTestStart e).2 = b.begin src .dma := rfl

theorem writes_readBack (e : EduDev) :
    b.writes src (dmaTestReadBack e).2 = b.begin src .dma := rfl

theorem writes_kick {e : EduDev} {req : EduSubmitReq} {ws : List MmioWrite}
    (h : kickWrites e req = .ok ws) : b.writes src ws = b.begin src (workOf req) := by
  unfold kickWrites at h
  split_ifs at h with hfact hdma
  · obtain rfl := Except.ok.inj h
    rw [workOf, if_pos hfact]
    rfl
  · obtain rfl := Except.ok.inj h
    rw [workOf, if_neg hfact]
    rfl

theorem kickStep_begins {c : Cmd} {ws : List MmioWrite} (hmem : c ∈ b.unkicked)
    (h : kickWrites b.sys.dev c.req = .ok ws) :
    b.kickStep c =
      ({ b with unkicked := b.unkicked.erase c } : Board).begin (.ring c) (workOf c.req) := by
  rw [Board.kickStep, if_pos hmem, h]
  exact writes_kick _ _ h

/-- A kick leaves the board alone, or gives the device the work of a command that waits for it. -/
theorem kickStep_cases (c : Cmd) : b.kickStep c = b ∨
    c ∈ b.unkicked ∧ b.kickStep c =
      ({ b with unkicked := b.unkicked.erase c } : Board).begin (.ring c) (workOf c.req) := by
  by_cases hmem : c ∈ b.unkicked
  · cases hkick : kickWrites b.sys.dev c.req with
    | error => exact .inl (by rw [Board.kickStep, if_pos hmem, hkick])
    | ok ws => exact .inr ⟨hmem, kickStep_begins b hmem hkick⟩
  · exact .inl (if_neg hmem)

end

/-! ## The cases of a step -/

def Event.Silent : Event → Prop
  | .open _ | .irq _ _ => False
  | _ => True

theorem posted_of_silent {s : Sys} {e : Event} (he : e.Silent) : (step s e).posted = s.posted := by
  generalize hs' : step s e = s'
  have heff : Effect s e s' := hs' ▸ step_effect s e
  cases heff with
  | reset | post => exact absurd he id
  | claim | take | resetStats => rfl
  | payload _ _ _ _ hsame _ _ | quiet _ _ _ hsame _ _ => exact hsame.posted

/-- What a step can do to the device and to the record of its interrupts. -/
inductive DeviceEffect (factorial : BitVec 32 → BitVec 32) (b : Board) : BoardEvent → Board → Prop
  | opened (client) : DeviceEffect factorial b (.driver (.open client)) { b with raised := [] }
  | quiet (e unkicked) (hsilent : ∀ e', b.seen e = some e' → e'.Silent) :
      DeviceEffect factorial b e { b with unkicked := unkicked }
  | begun (e unkicked src w) (hsilent : ∀ e', b.seen e = some e' → e'.Silent)
      (hwork : ∀ c, src = .ring c → w = workOf c.req) :
      DeviceEffect factorial b e ({ b with unkicked := unkicked }.begin src w)
  | finished (j) (hj : j ∈ b.running) :
      DeviceEffect factorial b (.finish j) (b.finish factorial j)
  | entered (hidle : b.handler = none) (hstat : b.irqStat ≠ 0) :
      DeviceEffect factorial b .irqEnter
        { b with
          irqStat := b.irqStat &&& ~~~b.irqStat
          handler := some (b.irqStat, b.finished)
          finished := [] }
  | posted (stat js) (hhandler : b.handler = some (stat, js)) :
      DeviceEffect factorial b .irqPost
        { b with
          handler := none
          raised := if firstInflight b.sys.dev = none then b.raised else b.raised ++ [js] }

theorem driver_silent (b : Board) {e : Event} (hopen : ∀ client, e ≠ .open client) :
    ∀ e', b.seen (.driver e) = some e' → e'.Silent := by
  intro e' h
  unfold Board.seen at h
  cases e with
  | «open» client => exact absurd rfl (hopen client)
  | irq => exact absurd h nofun
  | submit | pollCq | factorial | dmaTest | arm | wake | timeout | dmaWrite | setEventfd
  | resetStats =>
    obtain rfl := Option.some.inj h
    trivial

section
variable (factorial : BitVec 32 → BitVec 32) (b : Board)

theorem kick_effect (c : Cmd) : DeviceEffect factorial b (.kick c) (b.kickStep c) := by
  have hsilent : ∀ e', b.seen (.kick c) = some e' → e'.Silent := nofun
  rcases kickStep_cases b c with hstay | ⟨-, hbegin⟩
  · rw [hstay]
    exact .quiet _ b.unkicked hsilent
  · rw [hbegin]
    exact .begun _ _ _ _ hsilent (by rintro _ ⟨⟩; rfl)

theorem enter_effect : DeviceEffect factorial b .irqEnter b.enterStep := by
  unfold Board.enterStep
  split_ifs with h
  · exact .entered h.1 h.2
  · exact .quiet _ b.unkicked nofun

theorem post_effect : DeviceEffect factorial b .irqPost b.postStep := by
  unfold Board.postStep
  split
  · rename_i stat js hhandler
    exact .posted stat js hhandler
  · rename_i hhandler
    exact .quiet _ b.unkicked (by simp [Board.seen, hhandler])

theorem submitStep_effect (client : Nat) (req : EduSubmitReq) :
    DeviceEffect factorial b (.driver (.submit client req)) (b.submitStep client req) := by
  have hsilent := driver_silent b (e := .submit client req) nofun
  unfold Board.submitStep
  split_ifs
  · exact .quiet _ _ hsilent
  · exact .quiet _ b.unkicked hsilent

theorem legacyStep_effect {e : Event} {ws : List MmioWrite} {w : Work} (there : Bool)
    (hopen : ∀ client, e ≠ .open client) (hws : b.writes .legacy ws = b.begin .legacy w) :
    DeviceEffect factorial b (.driver e) (b.legacyStep there ws) := by
  have hsilent := driver_silent b hopen
  unfold Board.legacyStep
  split_ifs
  · rw [hws]
    exact .begun _ b.unkicked .legacy w hsilent nofun
  · exact .quiet _ b.unkicked hsilent

theorem kernel_effect (e : Event) : DeviceEffect factorial b (.driver e) (b.kernelStep e) := by
  cases e with
  | «open» client => exact .opened client
  | submit client req => exact submitStep_effect factorial b client req
  | factorial input => exact legacyStep_effect factorial b _ nofun (writes_factorialStart b _ _ _)
  | dmaTest => exact legacyStep_effect factorial b _ nofun (writes_dmaTestStart b _ _)
  | wake fact => exact legacyStep_effect factorial b _ nofun (writes_readBack b _ _)
  | irq | pollCq | arm | timeout | dmaWrite | setEventfd | resetStats =>
    exact .quiet _ b.unkicked (driver_silent b nofun)

theorem device_effect (e : BoardEvent) : DeviceEffect factorial b e (b.deviceStep factorial e) := by
  cases e with
  | driver e => exact kernel_effect factorial b e
  | kick c => exact kick_effect factorial b c
  | finish j =>
    simp only [Board.deviceStep]
    split_ifs with hj
    · exact .finished j hj
    · exact .quiet _ b.unkicked nofun
  | irqEnter => exact enter_effect factorial b
  | irqPost => exact post_effect factorial b

end

/-! ## Events that find nothing to do -/

section
variable {factorial : BitVec 32 → BitVec 32} {b : Board}

theorem kick_idle {c : Cmd} (h : c ∉ b.unkicked) : boardStep factorial b (.kick c) = b := by
  show { b.kickStep c with sys := b.sys } = b
  rw [Board.kickStep, if_neg h]

theorem finish_idle {j : Job} (h : j ∉ b.running) : boardStep factorial b (.finish j) = b := by
  show { (if j ∈ b.running then b.finish factorial j else b) with sys := b.sys } = b
  rw [if_neg h]

theorem enter_idle (h : b.irqStat = 0 ∨ b.handler ≠ none) : boardStep factorial b .irqEnter = b := by
  show { b.enterStep with sys := b.sys } = b
  rw [Board.enterStep, if_neg (by rintro ⟨hidle, hstat⟩; exact h.elim hstat (· hidle))]

theorem post_idle (h : b.handler = none) : boardStep factorial b .irqPost = b := by
  have hsys : b.driverStep .irqPost = b.sys := by simp [Board.driverStep, Board.seen, h]
  have hdevice : b.postStep = b := by simp [Board.postStep, h]
  show { b.postStep with sys := b.driverStep .irqPost } = b
  rw [hdevice, hsys]

end

/-- What the end of a job changes, but for the result register. -/
structure Board.Ends (b : Board) (j : Job) (b' : Board) : Prop where
  sys : b'.sys = b.sys
  unkicked : b'.unkicked = b.unkicked
  kicks : b'.kicks = b.kicks
  running : b'.running = b.running.erase j
  finished : b'.finished = b.finished ++ [j]
  irqStat : b'.irqStat = b.irqStat ||| j.work.irqBit
  handler : b'.handler = b.handler
  raised : b'.raised = b.raised

theorem finish_ends (factorial : BitVec 32 → BitVec 32) (b : Board) (j : Job) :
    b.Ends j (b.finish factorial j) := by
  constructor <;> unfold Board.finish <;> cases j.work <;> rfl

/-! ## The invariant -/

def Board.postOf (b : Board) (i : Fin ringSize) : Post :=
  ⟨b.sys.owner i, completionOf b.sys.dev i b.regFact, b.regFact⟩

structure BoardInv (factorial : BitVec 32 → BitVec 32) (b : Board) : Prop where
  owner : OwnerInv b.sys
  raised : b.raised.length = b.sys.posted.length
  stat : ∀ stat js, b.handler = some (stat, js) → stat ≠ 0
  running : ∀ j ∈ b.running, ∀ c, j.source = .ring c → j.work = workOf c.req
  fact : ∀ j, b.factBy = some j →
    (∃ n, j.work = .factorial n ∧ b.regFact = factorial n) ∧
      ∀ c, j.source = .ring c → j.work = workOf c.req

section
variable {factorial : BitVec 32 → BitVec 32} {b : Board} {e : BoardEvent}

theorem driverStep_none (h : b.seen e = none) : b.driverStep e = b.sys := by
  rw [Board.driverStep, h]

theorem driverStep_some {e' : Event} (h : b.seen e = some e') : b.driverStep e = step b.sys e' := by
  rw [Board.driverStep, h]

/-- Only the handler and a wake-up are seen as something else than they are. -/
theorem seen_driver {e' : Event} (h : b.seen e = some e') (hirq : ∀ stat fact, e' ≠ .irq stat fact)
    (hwake : ∀ fact, e' ≠ .wake fact) : e = .driver e' := by
  cases e with
  | driver e =>
    cases e with
    | irq => cases h
    | wake => exact absurd (Option.some.inj h).symm (hwake _)
    | «open» | submit | pollCq | factorial | dmaTest | arm | timeout | dmaWrite | setEventfd
    | resetStats => rw [Option.some.inj h]
  | kick | finish | irqEnter => cases h
  | irqPost =>
    obtain ⟨_, -, h⟩ := Option.map_eq_some_iff.mp h
    exact absurd h.symm (hirq _ _)

theorem driverStep_ind {P : Sys → Prop} (hsys : P b.sys)
    (hstep : ∀ e', b.seen e = some e' → P (step b.sys e')) : P (b.driverStep e) := by
  unfold Board.driverStep
  split
  · rename_i e' he'
    exact hstep e' he'
  · exact hsys

theorem posted_of_seen (h : ∀ e', b.seen e = some e' → e'.Silent) :
    (b.driverStep e).posted = b.sys.posted :=
  driverStep_ind (P := fun s => s.posted = b.sys.posted) rfl
    fun e' he' => posted_of_silent (h e' he')

section
variable {stat : BitVec 32} {js : List Job} {i : Fin ringSize}

theorem driverStep_post (hhandler : b.handler = some (stat, js)) :
    b.driverStep .irqPost = step b.sys (.irq stat b.regFact) := by
  simp [Board.driverStep, Board.seen, hhandler]

theorem driverStep_idle (hhandler : b.handler = some (stat, js)) (hstat : stat ≠ 0)
    (hfirst : firstInflight b.sys.dev = none) :
    b.driverStep .irqPost = { b.sys with dev := acknowledged b.sys.dev stat } := by
  rw [driverStep_post hhandler, step_irq_idle hstat hfirst]

theorem driverStep_posts (hhandler : b.handler = some (stat, js)) (hstat : stat ≠ 0)
    (hfirst : firstInflight b.sys.dev = some i) :
    b.driverStep .irqPost = b.sys.post i stat b.regFact := by
  rw [driverStep_post hhandler, step_irq_posts hstat hfirst]

end

namespace BoardInv

theorem powered (d : EduDev) (fact : BitVec 32) : BoardInv factorial (.powered d fact) where
  owner := .start d
  raised := rfl
  stat := nofun
  running := by simp [Board.powered]
  fact := nofun

theorem owner_step (h : OwnerInv b.sys) (e : BoardEvent) : OwnerInv (b.driverStep e) :=
  driverStep_ind h fun e' _ => h.step e'

theorem begin (h : BoardInv factorial b) {src : Source} {w : Work}
    (hwork : ∀ c, src = .ring c → w = workOf c.req) : BoardInv factorial (b.begin src w) where
  owner := h.owner
  raised := h.raised
  stat := h.stat
  running := by
    intro j hj
    simp only [Board.begin, List.mem_append, List.mem_singleton] at hj
    rcases hj with hj | rfl
    · exact h.running j hj
    · exact hwork
  fact := by
    intro j hj
    cases w with
    | factorial n => simp [Board.begin] at hj
    | dma => exact h.fact j hj

theorem finish (h : BoardInv factorial b) {j : Job} (hj : j ∈ b.running) :
    BoardInv factorial (b.finish factorial j) := by
  have hrunning : ∀ k ∈ b.running.erase j, ∀ c, k.source = .ring c → k.work = workOf c.req :=
    fun k hk => h.running k (List.mem_of_mem_erase hk)
  unfold Board.finish
  cases hwork : j.work with
  | factorial n =>
    refine ⟨h.owner, h.raised, h.stat, hrunning, ?_⟩
    rintro _ ⟨⟩
    exact ⟨⟨n, hwork, rfl⟩, h.running j hj⟩
  | dma => exact ⟨h.owner, h.raised, h.stat, hrunning, h.fact⟩

theorem advance (h : BoardInv factorial b) {s : Sys} (howner : OwnerInv s)
    (hposted : s.posted = b.sys.posted) : BoardInv factorial { b with sys := s } :=
  ⟨howner, by rw [hposted]; exact h.raised, h.stat, h.running, h.fact⟩

theorem step (h : BoardInv factorial b) (e : BoardEvent) :
    BoardInv factorial (boardStep factorial b e) := by
  have howner := owner_step h.owner e
  generalize hb' : b.deviceStep factorial e = b'
  have heff : DeviceEffect factorial b e b' := hb' ▸ device_effect factorial b e
  rw [boardStep, hb']
  cases heff with
  | opened client => exact ⟨howner, rfl, h.stat, h.running, h.fact⟩
  | quiet _ unkicked hsilent =>
    have h' : BoardInv factorial { b with unkicked := unkicked } :=
      ⟨h.owner, h.raised, h.stat, h.running, h.fact⟩
    exact h'.advance howner (posted_of_seen hsilent)
  | begun _ unkicked src w hsilent hwork =>
    have h' : BoardInv factorial { b with unkicked := unkicked } :=
      ⟨h.owner, h.raised, h.stat, h.running, h.fact⟩
    exact (h'.begin hwork).advance howner (posted_of_seen hsilent)
  | finished j hj =>
    exact (h.finish hj).advance howner (congrArg Sys.posted (finish_ends factorial b j).sys.symm)
  | entered hidle hstat =>
    refine ⟨howner, h.raised, ?_, h.running, h.fact⟩
    rintro _ _ ⟨⟩
    exact hstat
  | posted stat js hhandler =>
    have hstat := h.stat stat js hhandler
    refine ⟨howner, ?_, nofun, h.running, h.fact⟩
    cases hfirst : firstInflight b.sys.dev with
    | none =>
      rw [driverStep_idle hhandler hstat hfirst]
      simpa using h.raised
    | some i =>
      rw [driverStep_posts hhandler hstat hfirst]
      simpa [Sys.post] using h.raised

theorem reachable (d : EduDev) (fact : BitVec 32) (evs : List BoardEvent) :
    BoardInv factorial (run (boardStep factorial) (.powered d fact) evs) :=
  run_inv (fun _ e h => h.step e) (powered d fact)

end BoardInv

end

end PcieDriver.Edu
