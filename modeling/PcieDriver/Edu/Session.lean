import PcieDriver.Edu.Journal
import PcieDriver.Edu.Trips

/-!
# Both paths in one program

A program calls the legacy ioctls and sends commands through the rings, in any order, and waits each
time. It sees what a machine without a device, interrupts and rings would tell it, as long as the
handler has ended its last run when a legacy ioctl begins its wait. Each path leaves alone what the
other one needs, but for `last_irq`, which they share, and `irq_done`.
-/

open Base

namespace PcieDriver.Edu

/-! ## A program with the device -/

/-- `inject_fault_show`, before it is printed. -/
def injectFaultShow (e : EduDev) : BitVec 32 := e.injectFault

/-- What a program does, with what goes on meanwhile. -/
inductive Action
  | call (t : FineTurn)
  | trip (timeoutMs : CInt) (op : Op) (r : FineRound)
  | mapRings
  | unmapRings
  | storeFault (parsed : Except StoreErr (BitVec 32)) (count : Nat)
  | showFault

inductive Upshot
  | returned (ret : Except Errno Response)
  | completed (c : EduCompletionReq)
  | stopped (why : Stop)
  | done
  | stored (ret : Except StoreErr Nat)
  | fault (val : BitVec 32)
  deriving DecidableEq

/-- The program ends here. -/
def Upshot.last : Upshot → Bool
  | .returned (.error .etimedout) | .stopped _ => true
  | _ => false

def Action.Allowed : Action → Prop
  | .call t => t.Ambient
  | .trip timeoutMs op r =>
    (0 ≤ timeoutMs.val ∧ timeoutMs.val ≤ 2147483) ∧ ValidOpcode op.req ∧ r.Elsewhere
  | .mapRings | .unmapRings | .storeFault _ _ | .showFault => True

namespace FinePort

section
variable (factorial : BitVec 32 → BitVec 32)

def mapRings (p : FinePort) : FinePort := { p with handle.ringsMapped := true }

def unmapRings (p : FinePort) : FinePort := { p with handle.ringsMapped := false }

def act (p : FinePort) : Action → FinePort × Upshot
  | .call t =>
    let (f, ret) := p.board.ioctl factorial t
    ({ p with board := f }, .returned ret)
  | .trip timeoutMs op r =>
    match p.roundTrip factorial timeoutMs op r with
    | (p, .ok c) => (p, .completed c)
    | (p, .error why) => (p, .stopped why)
  | .mapRings => (p.mapRings, .done)
  | .unmapRings => (p.unmapRings, .done)
  | .storeFault parsed count =>
    let (dev, ret) := injectFaultStore p.board.board.sys.dev parsed count
    ({ p with board.board.sys.dev := dev }, .stored ret)
  | .showFault => (p, .fault (injectFaultShow p.board.board.sys.dev))

def session (p : FinePort) : List Action → List Upshot
  | [] => []
  | a :: as =>
    let (p, o) := p.act factorial a
    if o.last then [o] else o :: p.session as

/-- The constructor of `EduDevice`: the open and the registration of an eventfd. -/
def construct (f : FineBoard) (ctx : Nat) : FinePort :=
  ⟨run (fineStep factorial) f [.driver (.open 0), .driver (.setEventfd ctx)], ⟨false, 0⟩⟩

end

end FinePort

/-- The device has nothing to do, and the handler at most its `complete_all`. -/
structure FineBoard.DeviceRests (f : FineBoard) : Prop where
  board : f.board.DeviceRests
  status : f.status = none

/-! ## The machine without a device -/

/-- `inject_fault` takes 0 and 1. -/
def Record.store (r : Record) (parsed : Except StoreErr (BitVec 32)) (count : Nat) :
    Record × Except StoreErr Nat :=
  match parsed with
  | .error err => (r, .error err)
  | .ok val => if 1 < val then (r, .error .einval) else ({ r with fault := val }, .ok count)

/-- Of so many polls one comes after the post. -/
def FineRound.InTime (r : FineRound) (y : Tally) (ms : Nat) (op : Op) : Prop :=
  (r.foundBy y op.req (2 * ms)).isSome = true

instance (r : FineRound) (y : Tally) (ms : Nat) (op : Op) : Decidable (r.InTime y ms op) :=
  inferInstanceAs (Decidable (_ = _))

namespace Action

def next (y : Tally) : Action → Tally
  | .call t => t.next y
  | .trip timeoutMs op r => r.next y op.req (2 * timeoutMs.val.toNat)
  | .mapRings | .unmapRings | .storeFault _ _ | .showFault => y

/-- The handler ends its last run before a legacy ioctl begins its wait. -/
def Settled (y : Tally) : Action → Prop
  | .call t => t.Settled y
  | .trip _ _ _ | .mapRings | .unmapRings | .storeFault _ _ | .showFault => True

instance (y : Tally) : (a : Action) → Decidable (a.Settled y)
  | .call t => inferInstanceAs (Decidable (t.Settled y))
  | .trip _ _ _ | .mapRings | .unmapRings | .storeFault _ _ | .showFault => isTrue trivial

end Action

/-- Every action is. -/
def Settled : Tally → List Action → Prop
  | _, [] => True
  | y, a :: as => a.Settled y ∧ Settled (a.next y) as

/-- What the actions are about. -/
structure Session where
  record : Record
  mapped : Bool

namespace Session

def store (s : Session) (parsed : Except StoreErr (BitVec 32)) (count : Nat) : Session × Upshot :=
  let (r, ret) := s.record.store parsed count
  ({ s with record := r }, .stored ret)

section
variable (factorial : BitVec 32 → BitVec 32)

def call (s : Session) (y : Tally) (t : FineTurn) : Session × Upshot :=
  let (r, ret) := s.record.reply factorial (t.Served y) t.second.back t.call
  ({ s with record := r }, .returned ret)

def complete (s : Session) (req : EduSubmitReq) : Session × Upshot :=
  ({ s with record := s.record.marked (workOf req).irqBit }, .completed (answer factorial req))

def trip (s : Session) (y : Tally) (timeoutMs : CInt) (op : Op) (r : FineRound) : Session × Upshot :=
  if op.zc = true ∧ s.mapped = false then (s, .stopped (.thrown EduDevice.needsRings))
  else if r.InTime y timeoutMs.val.toNat op then s.complete factorial op.req
  else (s, .stopped .timeout)

def act (s : Session) (y : Tally) : Action → Session × Upshot
  | .call t => s.call factorial y t
  | .trip timeoutMs op r => s.trip factorial y timeoutMs op r
  | .mapRings => ({ s with mapped := true }, .done)
  | .unmapRings => ({ s with mapped := false }, .done)
  | .storeFault parsed count => s.store parsed count
  | .showFault => (s, .fault s.record.fault)

def outcomes (s : Session) (y : Tally) : List Action → List Upshot
  | [] => []
  | a :: as =>
    let (s, o) := s.act factorial y a
    if o.last then [o] else o :: s.outcomes (a.next y) as

end

def start (f : FineBoard) : Session := ⟨.of f.board.sys.dev, false⟩

end Session

def Tally.of (f : FineBoard) : Tally := ⟨f.board.kicks, f.board.sys.calls, f.owed⟩

/-! ## Each action -/

/-- The program sees what the session says. -/
structure Session.Shows (factorial : BitVec 32 → BitVec 32) (s : Session) (y : Tally)
    (p : FinePort) : Prop where
  rested : FineRested factorial y p.board
  pc : p.board.board.sys.pc = .idle
  record : .of p.board.board.sys.dev = s.record
  mapped : p.handle.ringsMapped = s.mapped

section
variable {factorial : BitVec 32 → BitVec 32} {s : Session} {y : Tally} {p : FinePort}

/-- The session goes on as the program does, unless this is where the program ends. -/
def Session.Agrees (factorial : BitVec 32 → BitVec 32) (y : Tally) (a : Action) (s : Session)
    (p : FinePort) : Prop :=
  (p.act factorial a).2 = (s.act factorial y a).2 ∧
    ((s.act factorial y a).2.last = false →
      (s.act factorial y a).1.Shows factorial (a.next y) (p.act factorial a).1)

/-- **A round trip does what the session says**, or is late and times out. -/
theorem trip_shows (h : s.Shows factorial y p) {timeoutMs : CInt} {op : Op} {r : FineRound}
    (htimeout : 0 ≤ timeoutMs.val ∧ timeoutMs.val ≤ 2147483) (hop : ValidOpcode op.req)
    (hr : r.Elsewhere) : s.Agrees factorial y (.trip timeoutMs op r) p := by
  unfold Session.Agrees
  simp only [Session.act, Session.trip, FinePort.act]
  by_cases hunmapped : op.zc = true ∧ s.mapped = false
  · have hthrown : p.submit factorial op r =
        (p.meanwhile factorial r.before, .error EduDevice.needsRings) := by
      have hmapped : (p.meanwhile factorial r.before).handle.ringsMapped = false :=
        h.mapped.trans hunmapped.2
      simp only [FinePort.submit, hunmapped.1, if_true, hmapped, Bool.false_eq_true, if_false]
    simp only [if_pos hunmapped, FinePort.roundTrip, hthrown]
    exact ⟨trivial, fun hlast => absurd hlast.symm Bool.false_ne_true⟩
  · have hallowed : op.Allowed p.handle := by
      refine ⟨hop, fun hzc => h.mapped.trans ?_⟩
      rw [not_and, Bool.not_eq_false] at hunmapped
      exact hunmapped hzc
    obtain ⟨ms, hms⟩ := Int.eq_ofNat_of_zero_le htimeout.1
    have hround := fine_roundTrip hms (by omega) h.rested h.pc hallowed hr
    have hmapped := fine_roundTrip_mapped factorial p timeoutMs op r
    have htoNat : timeoutMs.val.toNat = ms := by rw [hms, Int.toNat_natCast]
    simp only [if_neg hunmapped, Action.next, htoNat]
    generalize p.roundTrip factorial timeoutMs op r = out at hround hmapped ⊢
    obtain ⟨q, result⟩ := out
    rcases hround with ⟨hfound, hdone⟩ | ⟨hnone, hresult⟩
    · obtain rfl : result = .ok (answer factorial op.req) := hdone.result
      simp only [if_pos (show r.InTime y ms op from hfound)]
      refine ⟨rfl, fun _ => ⟨hdone.rested, hdone.pc, hdone.record.trans ?_, hmapped.trans h.mapped⟩⟩
      rw [h.record]
      rfl
    · obtain rfl : result = .error .timeout := hresult
      have hlate : ¬ r.InTime y ms op := Bool.eq_false_iff.mp hnone
      simp only [if_neg hlate]
      exact ⟨trivial, fun hlast => absurd hlast.symm Bool.false_ne_true⟩

theorem call_shows (h : s.Shows factorial y p) {t : FineTurn} (ht : t.Ambient)
    (hsettled : t.Settled y) : s.Agrees factorial y (.call t) p := by
  have hfollows := fine_ioctl h.rested h.pc ht hsettled
  rw [h.record] at hfollows
  unfold Session.Agrees
  simp only [Session.act, Session.call, FinePort.act, Action.next]
  generalize p.board.ioctl factorial t = out at hfollows ⊢
  generalize s.record.reply factorial (t.Served y) t.second.back t.call = answer at hfollows ⊢
  refine ⟨congrArg Upshot.returned hfollows.ret, fun hlast => ?_⟩
  have hin : answer.2 ≠ .error .etimedout := by
    intro hlate
    simp only [hlate] at hlast
    cases hlast
  exact ⟨hfollows.rested hin, hfollows.pc hin, hfollows.record hin, h.mapped⟩

theorem store_shows (h : s.Shows factorial y p) (parsed : Except StoreErr (BitVec 32)) (count : Nat) :
    s.Agrees factorial y (.storeFault parsed count) p := by
  have hrested (val : BitVec 32) :
      FineRested factorial y { p.board with board.sys.dev.injectFault := val } := by
    have hinv : BoardInv factorial { p.board.board with sys.dev.injectFault := val } :=
      h.rested.inv.board.dev {} rfl
    exact h.rested.aside hinv ⟨{}, rfl, rfl, rfl, rfl, rfl, rfl, rfl, rfl, rfl⟩
  unfold Session.Agrees
  simp only [Session.act, Session.store, Record.store, FinePort.act, injectFaultStore]
  cases parsed with
  | error err => exact ⟨rfl, fun _ => h⟩
  | ok val =>
    dsimp only
    split_ifs
    · exact ⟨rfl, fun _ => h⟩
    · refine ⟨rfl, fun _ => ⟨hrested val, h.pc, ?_, h.mapped⟩⟩
      rw [← h.record]
      rfl

theorem act_shows (h : s.Shows factorial y p) {a : Action} (ha : a.Allowed) (hsettled : a.Settled y) :
    s.Agrees factorial y a p := by
  cases a with
  | call t => exact call_shows h ha hsettled
  | trip timeoutMs op r => exact trip_shows h ha.1 ha.2.1 ha.2.2
  | mapRings => exact ⟨rfl, fun _ => ⟨h.rested, h.pc, h.record, rfl⟩⟩
  | unmapRings => exact ⟨rfl, fun _ => ⟨h.rested, h.pc, h.record, rfl⟩⟩
  | storeFault parsed count => exact store_shows h parsed count
  | showFault => exact ⟨congrArg (fun r : Record => Upshot.fault r.fault) h.record, fun _ => h⟩

/-! ## Whole programs -/

theorem session_outcomes (h : s.Shows factorial y p) {actions : List Action}
    (hactions : ∀ a ∈ actions, a.Allowed) (hsettled : Settled y actions) :
    p.session factorial actions = s.outcomes factorial y actions := by
  induction actions generalizing s y p with
  | nil => rfl
  | cons a as ih =>
    rw [List.forall_mem_cons] at hactions
    obtain ⟨hout, hshows⟩ := act_shows h hactions.1 hsettled.1
    simp only [FinePort.session, Session.outcomes, hout]
    cases hlast : (s.act factorial y a).2.last with
    | true => rfl
    | false => rw [ih (hshows hlast) hactions.2 hsettled.2]

theorem start_shows {f : FineBoard} (hinv : FineInv factorial f) (hrests : f.DeviceRests)
    (hpc : f.board.sys.pc = .idle) (ctx : Nat) :
    (Session.start f).Shows factorial (.of f) (FinePort.construct factorial f ctx) := by
  have hready := construct_ready hinv.board hrests.board ctx
  exact ⟨⟨⟨hready.inv, hinv.status⟩, ⟨rfl, hready⟩, .done, hrests.status, rfl⟩, hpc, rfl, rfl⟩

/-- A call that is not settled may end at once: here with its operand for its result, while the device
is at work. -/
theorem unsettled_call {f : FineBoard} (h : FineRested factorial y f) (hpc : f.board.sys.pc = .idle)
    (howed : y.owed = true) (n : BitVec 32) :
    (f.ioctl factorial ⟨.factorial n, [], ⟨[], [.irqComplete]⟩, ⟨[], []⟩⟩).2 =
      .ok (.factorial ⟨n, n, 0⟩) := by
  have hkicked : (fineStep factorial f (.driver (.factorial n))).board.sys.pc.kicked = true := by
    show (step f.board.sys (.factorial n)).pc.kicked = true
    simp only [step, if_pos hpc]
    rfl
  have hfact : (fineStep factorial f (.driver (.factorial n))).board.regFact = n := by
    show (f.board.legacyStep (f.board.sys.pc = .idle) (factorialStart f.board.sys.dev n).2).regFact = n
    rw [Board.legacyStep, if_pos (decide_eq_true hpc), writes_factorialStart]
    rfl
  have hirq : (fineStep factorial f (.driver (.factorial n))).board.sys.dev.lastIrq = 0 := by
    show (step f.board.sys (.factorial n)).dev.lastIrq = 0
    simp only [step, if_pos hpc]
    rfl
  have howed' : (fineStep factorial f (.driver (.factorial n))).owed = true := h.owed.trans howed
  unfold FineBoard.ioctl
  simp only [run_nil, FineBoard.runFactorial, FineBoard.waitIrq, run_cons]
  generalize fineStep factorial f (.driver (.factorial n)) = g at hkicked hfact hirq howed'
  have hwoken : fineStep factorial (fineStep factorial g (.driver .arm)) .irqComplete =
      { g with
        owed := false
        board.sys := { g.board.sys with
          dev := completeAll (reinitCompletion g.board.sys.dev)
          pc := g.board.sys.pc.armed } } := by
    rw [fine_arm factorial hkicked]
    exact if_pos howed'
  simp only [hwoken, waitResult, completeAll, if_true, hfact, reinitCompletion, hirq]

end

/-- In time for a timeout of 1 ms, with what was owed before and without the `complete_all` of its own
run. -/
def hastyRound (kicks calls : Nat) (op : Op) : FineRound where
  before := []
  entering := [.driver .resetStats]
  kicking := []
  waiting
    | 0 => [.irqComplete, .finish (jobOf kicks ⟨calls, 0, op.req⟩), .driver (.setEventfd 4)]
    | 1 => [.irqRead, .driver .resetStats, .irqAck, .irqPost]
    | _ => []

/-- What was owed comes before `reinit_completion`. -/
def settledLeg (j : Job) (sent : List FineEvent) : FineLeg :=
  ⟨[.driver .resetStats, .irqComplete], sent ++ fineErrand j ++ [.irqComplete]⟩

theorem hastyRound_elsewhere (kicks calls : Nat) (op : Op) :
    (hastyRound kicks calls op).Elsewhere where
  before := List.forall_mem_nil _
  entering := by
    simp [hastyRound, FineElsewhere, FineEvent.Among, FineEvent.coarse, BoardEvent.Background]
  kicking := List.forall_mem_nil _
  waiting := by
    intro n
    rcases n with _ | _ | n
    · simp [hastyRound, FineElsewhere, FineEvent.Among, FineEvent.coarse, BoardEvent.Background]
    · simp [hastyRound, FineElsewhere, FineEvent.Among, FineEvent.coarse, BoardEvent.Background]
    · exact List.forall_mem_nil _

theorem settledLeg_ambient (j : Job) {sent : List FineEvent} (hsent : ∀ e ∈ sent, e.Ambient) :
    ∀ e ∈ (settledLeg j sent).early ++ (settledLeg j sent).late, e.Ambient := by
  intro e he
  simp only [settledLeg, fineErrand, List.mem_append, List.mem_cons, List.not_mem_nil, or_false] at he
  rcases he with (rfl | rfl) | (he | rfl | rfl | rfl | rfl) | rfl
  · exact List.forall_mem_singleton.mpr trivial
  · exact List.forall_mem_nil _
  · exact hsent e he
  · exact List.forall_mem_singleton.mpr trivial
  · exact List.forall_mem_nil _
  · exact List.forall_mem_singleton.mpr trivial
  · exact List.forall_mem_singleton.mpr trivial
  · exact List.forall_mem_nil _

end PcieDriver.Edu
