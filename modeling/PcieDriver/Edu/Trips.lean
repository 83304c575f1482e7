import PcieDriver.Edu.Waits

/-!
# Round trips and a `complete_all` that is owed

The completion of a command can be polled as soon as it is posted. The handler may end its run for it
at any time after that.
-/

open Base

namespace PcieDriver.Edu

/-! ## A program with the device -/

/-- What goes on beside the program. The kicks are its own. -/
def FineElsewhere (es : List FineEvent) : Prop :=
  ∀ e ∈ es, e.Among BoardEvent.Background ∧ ∀ c, e ≠ .kick c

/-- What goes on in one round: before the call, between the write of a zero-copy entry and the ioctl,
inside the ioctl before its kick, and before each poll. -/
structure FineRound where
  before : List FineEvent
  entering : List FineEvent
  kicking : List FineEvent
  waiting : Nat → List FineEvent

structure FineRound.Elsewhere (r : FineRound) : Prop where
  before : FineElsewhere r.before
  entering : FineElsewhere r.entering
  kicking : FineElsewhere r.kicking
  waiting : ∀ k, FineElsewhere (r.waiting k)

/-- The device of a program, and the program's handle on it. -/
structure FinePort where
  board : FineBoard
  handle : EduDevice

namespace FinePort

/-- Without what the handler has read and what it owes. -/
def port (p : FinePort) : Port := ⟨p.board.board, p.handle⟩

section
variable (factorial : BitVec 32 → BitVec 32)

def meanwhile (p : FinePort) (es : List FineEvent) : FinePort :=
  { p with board := run (fineStep factorial) p.board es }

/-- The stores of `submit_zc`. -/
def write (p : FinePort) (req : EduSubmitReq) : FinePort :=
  { p with board.board := (p.port.write req).board }

def ioctlSubmit (p : FinePort) (req : EduSubmitReq) (kicking : List FineEvent) :
    FinePort × Except String Unit :=
  let ret := (eduIocSubmit p.board.board.sys.dev true req).2.2
  let c : Cmd := ⟨p.board.board.sys.calls, 0, req⟩
  let f := fineStep factorial p.board (.driver (.submit 0 req))
  (⟨run (fineStep factorial) f (kicking ++ [.kick c]), p.handle.advance ret⟩,
    EduDevice.submitResult ret)

/-- `EduDevice::submit` and `EduDevice::submit_zc`. -/
def submit (p : FinePort) (op : Op) (r : FineRound) : FinePort × Except String Unit :=
  let p := p.meanwhile factorial r.before
  if op.zc then
    if p.handle.ringsMapped then
      ((p.write op.req).meanwhile factorial r.entering).ioctlSubmit factorial op.req r.kicking
    else (p, .error EduDevice.needsRings)
  else (p.meanwhile factorial r.entering).ioctlSubmit factorial op.req r.kicking

def pollStep (p : FinePort) : FinePort :=
  { p with board := fineStep factorial p.board (.driver (.pollCq 0)) }

/-- After `k` polls. -/
def afterPolls (p : FinePort) (waiting : Nat → List FineEvent) : Nat → FinePort
  | 0 => p
  | k + 1 => (((p.afterPolls waiting k).meanwhile factorial (waiting k))).pollStep factorial

/-- What poll `k` comes to. -/
def polls (p : FinePort) (waiting : Nat → List FineEvent) (k : Nat) : Poll :=
  ((p.afterPolls factorial waiting k).meanwhile factorial (waiting k)).port.found

def wait (p : FinePort) (waiting : Nat → List FineEvent) (timeoutMs : CInt) : FinePort × WaitResult :=
  let w := EduDevice.waitCompletion (p.polls factorial waiting) timeoutMs
  (p.afterPolls factorial waiting w.polled, w.result)

def roundTrip (p : FinePort) (timeoutMs : CInt) (op : Op) (r : FineRound) :
    FinePort × Except Stop EduCompletionReq :=
  match p.submit factorial op r with
  | (p, .error what) => (p, .error (.thrown what))
  | (p, .ok ()) =>
    match p.wait factorial r.waiting timeoutMs with
    | (p, .completion c) =>
      if op.checked ∧ c.status ≠ 0 then (p, .error (.notOk c)) else (p, .ok c)
    | (p, .nullopt) => (p, .error .timeout)
    | (p, .thrown what) => (p, .error (.thrown what))
    | (p, .overflow) => (p, .error .overflow)

end

end FinePort

/-! ## What is due -/

/-- All that went on before poll `n`. -/
def fineWaited (waiting : Nat → List FineEvent) (n : Nat) : List FineEvent :=
  (List.range n).flatMap waiting

namespace FineRound

variable (r : FineRound) (y : Tally) (req : EduSubmitReq)

/-- When the ioctl has claimed a slot for the command. -/
def claimed : Debt :=
  ⟨.kick ⟨y.calls, 0, req⟩ :: fineErrand (jobOf y.kicks ⟨y.calls, 0, req⟩),
    ((y.pass r.before).pass r.entering).owed⟩

/-- At poll `n`. -/
def due (n : Nat) : Debt :=
  run Debt.step (r.claimed y req) (r.kicking ++ [.kick ⟨y.calls, 0, req⟩] ++ fineWaited r.waiting (n + 1))

/-- The first of so many polls that finds the completion. -/
def foundBy (polls : Nat) : Option Nat :=
  (List.range polls).find? fun n => (r.due y req n).todo.isEmpty

def next (polls : Nat) : Tally :=
  match r.foundBy y req polls with
  | some n => ⟨y.kicks + 1, y.calls + 1, (r.due y req n).owed⟩
  | none => y

end FineRound

theorem fineWaited_succ (waiting : Nat → List FineEvent) (n : Nat) :
    fineWaited waiting (n + 1) = fineWaited waiting n ++ waiting n := by
  simp [fineWaited, List.range_succ]

/-! ## The submit -/

section
variable {factorial : BitVec 32 → BitVec 32} {p : FinePort} {y : Tally} {c : Cmd} {k : Nat}
  {req : EduSubmitReq} {d : Debt} {record : Record}

theorem background_ambient {e : BoardEvent} (h : e.Background) : e.Ambient := by
  cases e with
  | driver e =>
    cases e with
    | dmaWrite => trivial
    | _ => exact h
  | _ => exact h

theorem FineElsewhere.ambient {es : List FineEvent} (h : FineElsewhere es) : ∀ e ∈ es, e.Ambient :=
  fun e he e' he' => background_ambient ((h e he).1 e' he')

theorem FineElsewhere.background {es : List FineEvent} (h : FineElsewhere es) :
    ∀ e ∈ es, e.Among BoardEvent.Background := fun e he => (h e he).1

theorem FineRested.write (h : FineRested factorial y p.board) (req : EduSubmitReq) :
    FineRested factorial y (p.write req).board := by
  have hready := h.here.ready.write p.handle req
  exact ⟨⟨hready.inv, h.inv.status⟩, ⟨rfl, hready⟩, .done, h.status, h.owed⟩

theorem FineRested.claim (h : FineRested factorial y p.board) (hop : ValidOpcode req) :
    let c : Cmd := ⟨y.calls, 0, req⟩
    FineAt factorial (workOf req).irqBit (Raising factorial c y.kicks)
      ⟨.kick c :: fineErrand (jobOf y.kicks c), y.owed⟩
      (fineStep factorial p.board (.driver (.submit 0 req))) := by
  intro c
  have hprogress := h.here.ready.claim hop
  refine ⟨h.inv.step _, ⟨hprogress, ?_⟩, .kick _ _, h.status, h.owed⟩
  rw [if_neg (by simp [FineEvent.coarse, fineErrand])]
  cases hprogress with
  | claimed _ hdevice => exact hdevice.stat.mpr rfl

/-- The command is under way, and the record is as it was. -/
structure FinePort.Sent (factorial : BitVec 32 → BitVec 32) (c : Cmd) (k : Nat) (record : Record)
    (d : Debt) (p : FinePort) : Prop where
  here : FineAt factorial (workOf c.req).irqBit (Raising factorial c k) d p.board
  kept : Kept (workOf c.req).irqBit .idle record d p.board.board.sys

theorem FinePort.Sent.meanwhile (h : p.Sent factorial c k record d) (hop : ValidOpcode c.req)
    {es : List FineEvent} (hes : ∀ e ∈ es, e.Among BoardEvent.Background) :
    (p.meanwhile factorial es).Sent factorial c k record (run Debt.step d es) :=
  ⟨(tracks_raising hop).events h.here hes,
    (h.here.all_kept (tracks_raising hop) (fun _ => background_ambient) h.kept hes).1⟩

/-- **A submit is accepted and the device gets the command.** -/
theorem FineRested.ioctlSubmit (h : FineRested factorial y p.board) (hpc : p.board.board.sys.pc = .idle)
    (hop : ValidOpcode req) {kicking : List FineEvent} (hkicking : FineElsewhere kicking) :
    let c : Cmd := ⟨y.calls, 0, req⟩
    (p.ioctlSubmit factorial req kicking).2 = .ok () ∧
      (p.ioctlSubmit factorial req kicking).1.Sent factorial c y.kicks
        (Record.of p.board.board.sys.dev)
        (run Debt.step ⟨.kick c :: fineErrand (jobOf y.kicks c), y.owed⟩ (kicking ++ [.kick c])) := by
  intro c
  have hcalls : p.board.board.sys.calls = y.calls := h.here.ready.calls
  constructor
  · show EduDevice.submitResult (eduIocSubmit p.board.board.sys.dev true req).2.2 = .ok ()
    rw [h.here.ready.accepts hop]
    rfl
  · have hsys : (fineStep factorial p.board (.driver (.submit 0 req))).board.sys =
        p.board.board.sys.claim 0 req := step_submit_claims h.here.ready.not_full
    have hclaimed : FinePort.Sent factorial c y.kicks (Record.of p.board.board.sys.dev)
        ⟨.kick c :: fineErrand (jobOf y.kicks c), y.owed⟩
        ⟨fineStep factorial p.board (.driver (.submit 0 req)), p.handle⟩ := by
      refine ⟨h.claim hop, ?_, ?_, fun hlength => absurd hlength (by simp [fineErrand])⟩
      · rw [hsys]
        exact hpc
      · rw [hsys]
        rfl
    have hes : ∀ e ∈ kicking ++ [.kick c], e.Among BoardEvent.Background := by
      refine List.forall_mem_append.mpr ⟨hkicking.background, ?_⟩
      exact List.forall_mem_singleton.mpr (List.forall_mem_singleton.mpr trivial)
    have hsent := hclaimed.meanwhile hop hes
    have hcmd : (⟨p.board.board.sys.calls, 0, req⟩ : Cmd) = c := by rw [hcalls]
    show FinePort.Sent factorial c y.kicks _ _ ⟨run (fineStep factorial) _
      (kicking ++ [.kick ⟨p.board.board.sys.calls, 0, req⟩]), _⟩
    rw [hcmd]
    exact ⟨hsent.here, hsent.kept⟩

/-! ## The wait -/

theorem Remains.coarse_nil {todo : List FineEvent} (h : Remains todo) :
    todo.flatMap FineEvent.coarse = [] ↔ todo = [] := by
  cases h <;> simp [fineErrand, FineEvent.coarse]

namespace FinePort.Sent

variable (h : p.Sent factorial c k record d)
include h

theorem found : p.port.found = .ok (if d.todo = [] then some (answer factorial c.req) else none) := by
  have hprogress : Progress factorial c k _ p.port.board := h.here.here.progress
  rw [hprogress.found]
  simp only [h.here.remains.coarse_nil]

theorem poll_stays (htodo : d.todo ≠ []) : p.pollStep factorial = p := by
  have hprogress : Progress factorial c k _ p.port.board := h.here.here.progress
  have hstay := congrArg Port.board (hprogress.poll (h.here.remains.coarse_nil.not.mpr htodo))
  show { p with board := { p.board with board := (p.port.pollStep factorial).board } } = p
  rw [hstay]
  rfl

theorem poll_takes (htodo : d.todo = []) :
    FineRested factorial ⟨k + 1, c.id + 1, d.owed⟩ (p.pollStep factorial).board ∧
      (p.pollStep factorial).board.board.sys.pc = .idle ∧
      Record.of (p.pollStep factorial).board.board.sys.dev =
        record.marked (workOf c.req).irqBit := by
  have hprogress : Progress factorial c k _ p.port.board := h.here.here.progress
  have hstatus := h.here.status
  have hkept := h.kept
  rw [htodo] at hprogress hstatus
  have hready : (p.pollStep factorial).board.board.Ready factorial (k + 1) (c.id + 1) := hprogress.take
  have hpoll : (p.pollStep factorial).board.board.sys.pc = p.board.board.sys.pc ∧
      Record.of (p.pollStep factorial).board.board.sys.dev = .of p.board.board.sys.dev := by
    show (step p.board.board.sys (.pollCq 0)).pc = _ ∧
      Record.of (step p.board.board.sys (.pollCq 0)).dev = _
    by_cases hempty : p.board.board.sys.dev.cqHead = p.board.board.sys.dev.cqTail
    · rw [step_poll_empty hempty]
      exact ⟨rfl, rfl⟩
    · rw [step_poll_takes hempty]
      exact ⟨rfl, rfl⟩
  have hinv : FineInv factorial (p.pollStep factorial).board := h.here.inv.step (.driver (.pollCq 0))
  refine ⟨⟨hinv, ⟨rfl, hready⟩, .done, hstatus, h.here.owed⟩,
    hpoll.1.trans hkept.pc, hpoll.2.trans ?_⟩
  have hirq := hkept.irq (by rw [htodo]; exact Nat.zero_le 1)
  obtain ⟨hfactIn, hfactOut, hok, hfault⟩ := marked_iff.mp hkept.record
  simp only [Record.of, Record.marked] at *
  simp only [*]

theorem before_poll (hop : ValidOpcode c.req) {es : List FineEvent} (hes : FineElsewhere es) :
    (p.meanwhile factorial es).Sent factorial c k record (run Debt.step d es) :=
  h.meanwhile hop hes.background

variable {waiting : Nat → List FineEvent} (hop : ValidOpcode c.req)
  (hwaiting : ∀ n, FineElsewhere (waiting n))
include hop hwaiting

/-- As long as the polls come back empty, the command is under way. -/
theorem afterPolls {n : Nat} (hbefore : EmptyBefore (p.polls factorial waiting) n) :
    (p.afterPolls factorial waiting n).Sent factorial c k record
        (run Debt.step d (fineWaited waiting n)) ∧
      ∀ m < n, (run Debt.step d (fineWaited waiting (m + 1))).todo ≠ [] := by
  induction n with
  | zero => exact ⟨h, fun m hm => absurd hm (Nat.not_lt_zero m)⟩
  | succ n ih =>
    obtain ⟨hn, hnone⟩ := ih fun m hm => hbefore m (Nat.lt_succ_of_lt hm)
    have hnext := hn.before_poll hop (hwaiting n)
    rw [← run_append, ← fineWaited_succ] at hnext
    have hpoll : p.polls factorial waiting n = .ok none := hbefore n (Nat.lt_succ_self n)
    have hne : (run Debt.step d (fineWaited waiting (n + 1))).todo ≠ [] := by
      intro hdone
      have hfound := hnext.found.symm.trans hpoll
      rw [if_pos hdone] at hfound
      cases hfound
    refine ⟨?_, fun m hm => ?_⟩
    · show FinePort.Sent factorial c k record _ (FinePort.pollStep factorial _)
      rw [hnext.poll_stays hne]
      exact hnext
    · rcases Nat.lt_succ_iff_lt_or_eq.mp hm with hlt | rfl
      · exact hnone m hlt
      · exact hne

/-- **A wait returns the answer of the first poll that comes after the post**, and if there is none it
times out. -/
theorem wait {timeoutMs : CInt} {ms : Nat} (hms : timeoutMs.val = ms) (hfits : ms ≤ 2147483) :
    let w := p.wait factorial waiting timeoutMs
    let foundBy := (List.range (2 * ms)).find? fun n =>
      (run Debt.step d (fineWaited waiting (n + 1))).todo.isEmpty
    (∃ n, foundBy = some n ∧ w.2 = .completion (answer factorial c.req) ∧
        FineRested factorial
          ⟨k + 1, c.id + 1, (run Debt.step d (fineWaited waiting (n + 1))).owed⟩ w.1.board ∧
        w.1.board.board.sys.pc = .idle ∧
        Record.of w.1.board.board.sys.dev = record.marked (workOf c.req).irqBit) ∨
      foundBy = none ∧ w.2 = .nullopt := by
  have hends := wait_ends hms hfits (p.polls factorial waiting)
  unfold FinePort.wait
  generalize EduDevice.waitCompletion (p.polls factorial waiting) timeoutMs = w at hends ⊢
  cases hends with
  | completion n c' hn hbefore hpoll =>
    obtain ⟨hsent, hnone⟩ := h.afterPolls hop hwaiting hbefore
    have hnext := hsent.before_poll hop (hwaiting n)
    rw [← run_append, ← fineWaited_succ] at hnext
    have hfound := hnext.found.symm.trans hpoll
    have hdone : (run Debt.step d (fineWaited waiting (n + 1))).todo = [] := by
      by_contra hne
      rw [if_neg hne] at hfound
      cases hfound
    rw [if_pos hdone] at hfound
    obtain rfl := Option.some.inj (Except.ok.inj hfound)
    refine .inl ⟨n, ?_, rfl, hnext.poll_takes hdone⟩
    rw [List.find?_range_eq_some]
    refine ⟨List.isEmpty_iff.mpr hdone, List.mem_range.mpr hn, fun m hm => ?_⟩
    simpa using hnone m hm
  | thrown n what hn hbefore hpoll =>
    have hnext := (h.afterPolls hop hwaiting hbefore).1.before_poll hop (hwaiting n)
    cases hnext.found.symm.trans hpoll
  | nullopt hbefore =>
    refine .inr ⟨List.find?_range_eq_none.mpr fun m hm => ?_, rfl⟩
    simpa using (h.afterPolls hop hwaiting hbefore).2 m hm

end FinePort.Sent

/-! ## One round -/

section
variable {op : Op} {r : FineRound}

/-- What `submit` and `submit_zc` do before the ioctl. -/
def FinePort.entry (factorial : BitVec 32 → BitVec 32) (p : FinePort) (op : Op) (r : FineRound) :
    FinePort :=
  let p := p.meanwhile factorial r.before
  (if op.zc then p.write op.req else p).meanwhile factorial r.entering

theorem fine_entry (hop : op.Allowed p.handle) (r : FineRound) :
    p.submit factorial op r = (p.entry factorial op r).ioctlSubmit factorial op.req r.kicking := by
  unfold FinePort.submit FinePort.entry
  cases hzc : op.zc with
  | false => rfl
  | true =>
    have hmapped : (p.meanwhile factorial r.before).handle.ringsMapped = true := hop.mapped hzc
    simp only [hmapped, if_true]

theorem FineRested.entry (h : FineRested factorial y p.board) (op : Op) (hr : r.Elsewhere) :
    FineRested factorial ((y.pass r.before).pass r.entering) (p.entry factorial op r).board ∧
      (p.entry factorial op r).board.board.sys.pc = p.board.board.sys.pc ∧
      Record.of (p.entry factorial op r).board.board.sys.dev = .of p.board.board.sys.dev := by
  have hbefore := h.events hr.before.ambient
  obtain ⟨hpc, hrecord⟩ := h.still hr.before.ambient
  unfold FinePort.entry
  cases op.zc with
  | false =>
    obtain ⟨hpc', hrecord'⟩ := hbefore.still hr.entering.ambient
    exact ⟨hbefore.events hr.entering.ambient, hpc'.trans hpc, hrecord'.trans hrecord⟩
  | true =>
    have hwritten : FineRested factorial (y.pass r.before)
        ((p.meanwhile factorial r.before).write op.req).board :=
      FineRested.write (p := p.meanwhile factorial r.before) hbefore op.req
    obtain ⟨hpc', hrecord'⟩ := hwritten.still hr.entering.ambient
    exact ⟨hwritten.events hr.entering.ambient, hpc'.trans hpc, hrecord'.trans hrecord⟩

/-- A round trip that is done, with what it leaves. -/
structure FineRound.Done (factorial : BitVec 32 → BitVec 32) (y : Tally) (record : Record) (op : Op)
    (out : FinePort × Except Stop EduCompletionReq) : Prop where
  result : out.2 = .ok (answer factorial op.req)
  rested : FineRested factorial y out.1.board
  pc : out.1.board.board.sys.pc = .idle
  record : Record.of out.1.board.board.sys.dev = record.marked (workOf op.req).irqBit

/-- **A round trip is done if a poll comes after the post**, and else it times out. -/
theorem fine_roundTrip {timeoutMs : CInt} {ms : Nat} (hms : timeoutMs.val = ms) (hfits : ms ≤ 2147483)
    (h : FineRested factorial y p.board) (hpc : p.board.board.sys.pc = .idle)
    (hop : op.Allowed p.handle) (hr : r.Elsewhere) :
    let out := p.roundTrip factorial timeoutMs op r
    ((r.foundBy y op.req (2 * ms)).isSome = true ∧ FineRound.Done factorial
        (r.next y op.req (2 * ms)) (Record.of p.board.board.sys.dev) op out) ∨
      (r.foundBy y op.req (2 * ms)).isSome = false ∧ out.2 = .error .timeout := by
  obtain ⟨hrested, hpc', hrecord⟩ := h.entry op hr
  obtain ⟨hok, hsent⟩ := hrested.ioctlSubmit (hpc'.trans hpc) hop.opcode hr.kicking
  rw [hrecord] at hsent
  have hwait := hsent.wait hop.opcode hr.waiting hms hfits
  rw [← fine_entry hop] at hok hwait
  simp only [← run_append] at hwait
  generalize hsubmit : p.submit factorial op r = q at hok hwait
  obtain ⟨q, ret⟩ := q
  obtain rfl : ret = .ok () := hok
  simp only [FinePort.roundTrip, hsubmit]
  generalize q.wait factorial r.waiting timeoutMs = w at hwait ⊢
  obtain ⟨q', result⟩ := w
  rcases hwait with ⟨n, hfound, hresult, hrested', hpc'', hrecord'⟩ | ⟨hnone, hresult⟩
  · obtain rfl : result = .completion (answer factorial op.req) := hresult
    have hstatus : ¬ (op.checked = true ∧ (answer factorial op.req).status ≠ 0) := by simp [answer]
    simp only [if_neg hstatus]
    have hfoundBy : r.foundBy y op.req (2 * ms) = some n := hfound
    have hnext : r.next y op.req (2 * ms) =
        ⟨y.kicks + 1, y.calls + 1, (r.due y op.req n).owed⟩ := by rw [FineRound.next, hfoundBy]
    refine .inl ⟨congrArg Option.isSome hfoundBy, rfl, ?_, hpc'', hrecord'⟩
    rw [hnext]
    exact hrested'
  · obtain rfl : result = .nullopt := hresult
    have hfoundBy : r.foundBy y op.req (2 * ms) = none := hnone
    exact .inr ⟨congrArg Option.isSome hfoundBy, rfl⟩

/-! ### The mapping stays -/

theorem fine_submit_mapped (factorial : BitVec 32 → BitVec 32) (p : FinePort) (op : Op)
    (r : FineRound) :
    (p.submit factorial op r).1.handle.ringsMapped = p.handle.ringsMapped := by
  simp only [FinePort.submit]
  split_ifs
  · exact advance_mapped _ _
  · rfl
  · exact advance_mapped _ _

theorem fine_afterPolls_handle (waiting : Nat → List FineEvent) (n : Nat) :
    (p.afterPolls factorial waiting n).handle = p.handle := by
  induction n with
  | zero => rfl
  | succ n ih => exact ih

theorem fine_roundTrip_mapped (factorial : BitVec 32 → BitVec 32) (p : FinePort) (timeoutMs : CInt)
    (op : Op) (r : FineRound) :
    (p.roundTrip factorial timeoutMs op r).1.handle.ringsMapped = p.handle.ringsMapped := by
  have hsubmit := fine_submit_mapped factorial p op r
  unfold FinePort.roundTrip
  split
  · next heq => rwa [heq] at hsubmit
  · next q heq =>
    rw [heq] at hsubmit
    have hwait : (q.wait factorial r.waiting timeoutMs).1.handle = q.handle :=
      fine_afterPolls_handle r.waiting _
    split <;> next heq =>
      rw [heq] at hwait
      first
        | exact (congrArg EduDevice.ringsMapped hwait).trans hsubmit
        | split_ifs <;> exact (congrArg EduDevice.ringsMapped hwait).trans hsubmit

end

end

end PcieDriver.Edu
