import PcieDriver.Edu.Depth
import PcieDriver.Edu.Errand
import PcieDriver.Edu.Reader
import PcieDriver.Edu.WaitCompletion

/-!
# Round trips

A program submits a request, waits for its completion, and only then submits the next. The device, the
handler and the rest of the system take their steps between any two calls of the driver.
-/

open Base

namespace PcieDriver.Edu

/-! ## A program with the device -/

/-- What goes on beside the program. The kicks are its own. -/
def Elsewhere (es : List BoardEvent) : Prop := ∀ e ∈ es, e.Background ∧ ∀ c, e ≠ .kick c

/-- What goes on in one round: before the call, between the write of a zero-copy entry and the ioctl,
inside the ioctl before its kick, and before each poll. -/
structure Round where
  before : List BoardEvent
  entering : List BoardEvent
  kicking : List BoardEvent
  waiting : Nat → List BoardEvent

structure Round.Elsewhere (r : Round) : Prop where
  before : Edu.Elsewhere r.before
  entering : Edu.Elsewhere r.entering
  kicking : Edu.Elsewhere r.kicking
  waiting : ∀ k, Edu.Elsewhere (r.waiting k)

/-- The device of a program, and the program's handle on it. -/
structure Port where
  board : Board
  handle : EduDevice

/-- What the program asks for. With `checked` it also looks at the status. -/
structure Op where
  zc : Bool
  checked : Bool
  req : EduSubmitReq

/-- Why a program stops early. -/
inductive Stop
  | timeout
  | notOk (c : EduCompletionReq)
  | thrown (what : String)
  | overflow
  deriving DecidableEq

namespace Port

section
variable (factorial : BitVec 32 → BitVec 32)

def meanwhile (p : Port) (es : List BoardEvent) : Port :=
  { p with board := run (boardStep factorial) p.board es }

/-- The stores of `submit_zc`. -/
def write (p : Port) (req : EduSubmitReq) : Port :=
  { p with board.sys.dev := p.handle.writeEntry p.board.sys.dev req }

def ioctlSubmit (p : Port) (req : EduSubmitReq) (kicking : List BoardEvent) :
    Port × Except String Unit :=
  let ret := (eduIocSubmit p.board.sys.dev true req).2.2
  let c : Cmd := ⟨p.board.sys.calls, 0, req⟩
  let b := boardStep factorial p.board (.driver (.submit 0 req))
  (⟨run (boardStep factorial) b (kicking ++ [.kick c]), p.handle.advance ret⟩,
    EduDevice.submitResult ret)

/-- `EduDevice::submit` and `EduDevice::submit_zc`. -/
def submit (p : Port) (op : Op) (r : Round) : Port × Except String Unit :=
  let p := p.meanwhile factorial r.before
  if op.zc then
    if p.handle.ringsMapped then
      ((p.write op.req).meanwhile factorial r.entering).ioctlSubmit factorial op.req r.kicking
    else (p, .error EduDevice.needsRings)
  else (p.meanwhile factorial r.entering).ioctlSubmit factorial op.req r.kicking

def pollStep (p : Port) : Port :=
  { p with board := boardStep factorial p.board (.driver (.pollCq 0)) }

def found (p : Port) : Poll := (EduDevice.pollCompletion p.board.sys.dev).2

/-- After `k` polls. -/
def afterPolls (p : Port) (waiting : Nat → List BoardEvent) : Nat → Port
  | 0 => p
  | k + 1 => (((p.afterPolls waiting k).meanwhile factorial (waiting k))).pollStep factorial

/-- What poll `k` comes to. -/
def polls (p : Port) (waiting : Nat → List BoardEvent) (k : Nat) : Poll :=
  ((p.afterPolls factorial waiting k).meanwhile factorial (waiting k)).found

def wait (p : Port) (waiting : Nat → List BoardEvent) (timeoutMs : CInt) : Port × WaitResult :=
  let w := EduDevice.waitCompletion (p.polls factorial waiting) timeoutMs
  (p.afterPolls factorial waiting w.polled, w.result)

def roundTrip (p : Port) (timeoutMs : CInt) (op : Op) (r : Round) :
    Port × Except Stop EduCompletionReq :=
  match p.submit factorial op r with
  | (p, .error what) => (p, .error (.thrown what))
  | (p, .ok ()) =>
    match p.wait factorial r.waiting timeoutMs with
    | (p, .completion c) =>
      if op.checked ∧ c.status ≠ 0 then (p, .error (.notOk c)) else (p, .ok c)
    | (p, .nullopt) => (p, .error .timeout)
    | (p, .thrown what) => (p, .error (.thrown what))
    | (p, .overflow) => (p, .error .overflow)

/-- One round trip after the other, up to the first that fails. -/
def serve (timeoutMs : CInt) : Port → List (Op × Round) → Port × List EduCompletionReq × Option Stop
  | p, [] => (p, [], none)
  | p, (op, r) :: todo =>
    match p.roundTrip factorial timeoutMs op r with
    | (p, .error stop) => (p, [], some stop)
    | (p, .ok c) =>
      let (p, cs, stop) := p.serve timeoutMs todo
      (p, c :: cs, stop)

end

end Port

/-! ## The submit -/

section
variable {factorial : BitVec 32 → BitVec 32} {b : Board} {p : Port} {kicks calls k : Nat} {c : Cmd}
  {req : EduSubmitReq}

theorem Board.Ready.consumed (h : b.Ready factorial kicks calls) :
    b.sys.consumed = b.sys.posted.length := by
  rw [← h.inv.owner.ring.empty_iff, ← h.inv.owner.ring.queue_eq_nil]
  exact h.queue

theorem Board.Ready.not_full (h : b.Ready factorial kicks calls) :
    ringFull b.sys.dev.sqTail b.sys.dev.cqHead = false := by
  have hlevel := h.level
  have hconsumed := h.consumed
  exact h.inv.owner.ring.not_full (by omega)

theorem Board.Ready.accepts (h : b.Ready factorial kicks calls) (hop : ValidOpcode req) :
    (eduIocSubmit b.sys.dev true req).2.2 = .ok () := by
  show (eduRingSubmit b.sys.dev req).2.2 = .ok ()
  exact submit_accepts h.not_full hop

/-- The claim of a slot leaves the kick to be done. -/
theorem Board.Ready.claim (h : b.Ready factorial kicks calls) (hop : ValidOpcode req) :
    let c : Cmd := ⟨calls, 0, req⟩
    Progress factorial c kicks (.kick c :: errand (jobOf kicks c))
      (boardStep factorial b (.driver (.submit 0 req))) := by
  intro c
  have hinv := h.inv.step (.driver (.submit 0 req))
  have hboard : boardStep factorial b (.driver (.submit 0 req)) =
      { b.submitStep 0 req with sys := Edu.step b.sys (.submit 0 req) } := rfl
  rw [hboard, step_submit_claims h.not_full, Board.submitStep, if_pos (submit_accepts h.not_full hop)]
    at hinv ⊢
  have hfree := (inUse_eq_empty _).mp h.rests.inflight
  refine .claimed ⟨hinv, ?_, ?_, ?_, ?_, h.queue⟩ ⟨h.kicks, ?_, ?_, h.rests.running, h.rests.finished⟩
    h.rests.handler
  · refine ⟨slotOf b.sys.dev.sqTail, ⟨?_, ?_⟩, fun n hn => ?_⟩
    · rw [OwnerInv.claim_slot.1]
      exact hop.ne_zero
    · rw [OwnerInv.claim_slot.2]
      simp [Sys.claim, h.calls, c]
    · by_contra hne
      rw [(OwnerInv.claim_other hne).1] at hn
      exact hn (hfree n)
  · exact intact_claim (Serial.intact_of_none h.rests.inflight) 0 req
  · rw [OwnerInv.claim_length, h.level]
    rfl
  · simp [Sys.claim, h.calls, c]
  · exact iff_of_true h.rests.irqStat rfl
  · simp [h.unkicked, h.calls, c]

theorem Board.Ready.write (h : b.Ready factorial kicks calls) (handle : EduDevice)
    (req : EduSubmitReq) :
    ({ b with sys.dev := handle.writeEntry b.sys.dev req } : Board).Ready factorial kicks calls := by
  refine ⟨⟨?_, ⟨h.rests.inflight, h.rests.running, h.rests.finished, h.rests.irqStat, h.rests.handler⟩,
    h.unkicked, h.level, h.kicks, h.calls⟩, h.queue⟩
  exact ⟨h.inv.owner.write _ _, h.inv.raised, h.inv.stat, h.inv.running, h.inv.fact⟩

theorem Elsewhere.background {es : List BoardEvent} (h : Elsewhere es) : ∀ e ∈ es, e.Background :=
  fun e he => (h e he).1

theorem Elsewhere.no_kick {es : List BoardEvent} (h : Elsewhere es) (c : Cmd) : .kick c ∉ es :=
  fun hmem => (h _ hmem).2 c rfl

/-- **A submit is accepted and the device gets the command.** -/
theorem ioctlSubmit_ready (h : p.board.Ready factorial kicks calls) (hop : ValidOpcode req)
    {kicking : List BoardEvent} (hkicking : Elsewhere kicking) :
    let c : Cmd := ⟨calls, 0, req⟩
    (p.ioctlSubmit factorial req kicking).2 = .ok () ∧
      Progress factorial c kicks (errand (jobOf kicks c))
        (p.ioctlSubmit factorial req kicking).1.board := by
  intro c
  refine ⟨?_, ?_⟩
  · show EduDevice.submitResult (eduIocSubmit p.board.sys.dev true req).2.2 = .ok ()
    rw [h.accepts hop]
    rfl
  · have hes : ∀ e ∈ kicking ++ [.kick c], e.Background := by
      intro e he
      rcases List.mem_append.mp he with he | he
      · exact hkicking.background e he
      · rw [List.mem_singleton.mp he]
        trivial
    have hrun := (h.claim hop).events hop hes
    rw [run_append, run_advance_skip (hkicking.no_kick c), run_cons, advance, if_pos rfl] at hrun
    show Progress factorial c kicks _ (run (boardStep factorial)
      (boardStep factorial p.board (.driver (.submit 0 req)))
      (kicking ++ [.kick ⟨p.board.sys.calls, 0, req⟩]))
    rw [h.calls]
    exact hrun

/-! ## The wait -/

theorem found_eq (hinv : RingInv p.board.sys) :
    p.found = match p.board.sys.queue with
      | [] => .ok none
      | entry :: _ => .ok (some entry.report) := by
  have hhead := poll_head hinv
  by_cases hempty : p.board.sys.dev.cqHead = p.board.sys.dev.cqTail
  · rw [hinv.queue_eq_nil.mpr hempty]
    show (EduDevice.pollCompletion p.board.sys.dev).2 = _
    simp only [EduDevice.pollCompletion, iocPoll_empty hempty]
  · obtain ⟨entry, rest, hqueue⟩ :=
      List.exists_cons_of_ne_nil (hinv.queue_eq_nil.not.mpr hempty)
    rw [poll_takes hempty, hqueue] at hhead
    rw [hqueue]
    show (EduDevice.pollCompletion p.board.sys.dev).2 = _
    simp only [EduDevice.pollCompletion, eduIocPollCq, poll_takes hempty, if_true]
    rw [Except.ok.inj hhead]

theorem pollStep_empty (hinv : RingInv p.board.sys) (hqueue : p.board.sys.queue = []) :
    p.pollStep factorial = p := by
  have hsys : step p.board.sys (.pollCq 0) = p.board.sys :=
    step_poll_empty (hinv.queue_eq_nil.mp hqueue)
  show { p with board := { p.board with sys := step p.board.sys (.pollCq 0) } } = p
  rw [hsys]

theorem Progress.found {todo : List BoardEvent} (h : Progress factorial c k todo p.board) :
    p.found = .ok (if todo = [] then some (answer factorial c.req) else none) := by
  have hring := h.inv.owner.ring
  cases h with
  | claimed hflies | running hflies | finished hflies | handled _ _ hflies =>
    rw [found_eq hring, hflies.queue]
    rfl
  | posted _ entry hqueue hreport =>
    rw [found_eq hring, hqueue, ← hreport]
    rfl

theorem Progress.poll {todo : List BoardEvent} (h : Progress factorial c k todo p.board)
    (htodo : todo ≠ []) : p.pollStep factorial = p := by
  have hring := h.inv.owner.ring
  cases h with
  | claimed hflies | running hflies | finished hflies | handled _ _ hflies =>
    exact pollStep_empty hring hflies.queue
  | posted => exact absurd rfl htodo

theorem Progress.take (h : Progress factorial c k [] p.board) :
    (p.pollStep factorial).board.Ready factorial (k + 1) (c.id + 1) := by
  cases h with
  | posted hstill entry hqueue hreport =>
    have hinv := hstill.inv.step (.driver (.pollCq 0))
    have hne : p.board.sys.dev.cqHead ≠ p.board.sys.dev.cqTail := by
      rw [ne_eq, ← hstill.inv.owner.ring.queue_eq_nil, hqueue]
      exact List.cons_ne_nil _ _
    have hboard : boardStep factorial p.board (.driver (.pollCq 0)) =
        { p.board with sys := p.board.sys.take } := by
      show { p.board with sys := step p.board.sys (.pollCq 0) } = _
      rw [step_poll_takes hne]
    rw [hboard] at hinv
    show (boardStep factorial p.board (.driver (.pollCq 0))).Ready factorial (k + 1) (c.id + 1)
    rw [hboard]
    refine ⟨⟨hinv, ?_, hstill.unkicked, hstill.level, hstill.kicks, hstill.calls⟩, ?_⟩
    · exact ⟨hstill.rests.inflight, hstill.rests.running, hstill.rests.finished,
        hstill.rests.irqStat, hstill.rests.handler⟩
    · show p.board.sys.take.queue = []
      rw [RingInv.queue_take, hqueue, List.tail_cons]

/-- All that went on before poll `n`. -/
def waited (waiting : Nat → List BoardEvent) (n : Nat) : List BoardEvent :=
  (List.range n).flatMap waiting

theorem waited_succ (waiting : Nat → List BoardEvent) (n : Nat) :
    waited waiting (n + 1) = waited waiting n ++ waiting n := by
  simp [waited, List.range_succ]

theorem waited_le (waiting : Nat → List BoardEvent) {m n : Nat} (h : m ≤ n) :
    waited waiting m <+: waited waiting n := by
  obtain ⟨d, rfl⟩ := Nat.exists_eq_add_of_le h
  rw [waited, waited, List.range_add, List.flatMap_append]
  exact List.prefix_append _ _

section
variable {waiting : Nat → List BoardEvent} (hop : ValidOpcode c.req)
  (h : Progress factorial c k (errand (jobOf k c)) p.board)
  (hwaiting : ∀ n, Elsewhere (waiting n))
include hop h hwaiting

omit h in
theorem Progress.before_poll {n : Nat}
    (hn : Progress factorial c k (run advance (errand (jobOf k c)) (waited waiting n))
      (p.afterPolls factorial waiting n).board) :
    Progress factorial c k (run advance (errand (jobOf k c)) (waited waiting (n + 1)))
      ((p.afterPolls factorial waiting n).meanwhile factorial (waiting n)).board := by
  rw [waited_succ, run_append]
  exact hn.events hop (hwaiting n).background

theorem Progress.afterPolls {n : Nat} (hbefore : EmptyBefore (p.polls factorial waiting) n) :
    Progress factorial c k (run advance (errand (jobOf k c)) (waited waiting n))
        (p.afterPolls factorial waiting n).board ∧
      run advance (errand (jobOf k c)) (waited waiting n) ≠ [] := by
  induction n with
  | zero => exact ⟨h, List.cons_ne_nil _ _⟩
  | succ n ih =>
    obtain ⟨hn, -⟩ := ih fun m hm => hbefore m (Nat.lt_succ_of_lt hm)
    have hnext := Progress.before_poll hop hwaiting hn
    have hpoll : p.polls factorial waiting n = .ok none := hbefore n (Nat.lt_succ_self n)
    have hfound := hnext.found.symm.trans hpoll
    have hne : run advance (errand (jobOf k c)) (waited waiting (n + 1)) ≠ [] := by
      intro hdone
      rw [if_pos hdone] at hfound
      cases hfound
    refine ⟨?_, hne⟩
    show Progress factorial c k _ (Port.pollStep factorial _).board
    rw [hnext.poll hne]
    exact hnext

/-- **A wait returns the answer exactly if the command is done before its last poll**, and else it
times out. -/
theorem Progress.wait {timeoutMs : CInt} {ms : Nat} (hms : timeoutMs.val = ms)
    (hfits : ms ≤ 2147483) :
    let w := p.wait factorial waiting timeoutMs
    (errand (jobOf k c)).Sublist (waited waiting (2 * ms)) ∧
        w.2 = .completion (answer factorial c.req) ∧
        w.1.board.Ready factorial (k + 1) (c.id + 1) ∨
      ¬ (errand (jobOf k c)).Sublist (waited waiting (2 * ms)) ∧ w.2 = .nullopt := by
  have hends := wait_ends hms hfits (p.polls factorial waiting)
  show (_ ∧ (EduDevice.waitCompletion (p.polls factorial waiting) timeoutMs).result = _ ∧
    (p.afterPolls factorial waiting
      (EduDevice.waitCompletion (p.polls factorial waiting) timeoutMs).polled).board.Ready
        factorial (k + 1) (c.id + 1)) ∨
    (_ ∧ (EduDevice.waitCompletion (p.polls factorial waiting) timeoutMs).result = _)
  generalize EduDevice.waitCompletion (p.polls factorial waiting) timeoutMs = w at hends ⊢
  cases hends with
  | completion n c' hn hbefore hpoll =>
    have hnext := Progress.before_poll hop hwaiting (h.afterPolls hop hwaiting hbefore).1
    have hfound := hnext.found.symm.trans hpoll
    have hdone : run advance (errand (jobOf k c)) (waited waiting (n + 1)) = [] := by
      by_contra hne
      rw [if_neg hne] at hfound
      cases hfound
    rw [if_pos hdone] at hfound
    rw [hdone] at hnext
    refine .inl ⟨?_, ?_, hnext.take⟩
    · exact ((run_advance_iff _ _).mp hdone).trans (waited_le waiting hn).sublist
    · rw [Option.some.inj (Except.ok.inj hfound)]
  | thrown n what hn hbefore hpoll =>
    have hnext := Progress.before_poll hop hwaiting (h.afterPolls hop hwaiting hbefore).1
    cases hnext.found.symm.trans hpoll
  | nullopt hbefore =>
    exact .inr ⟨fun hdone => (h.afterPolls hop hwaiting hbefore).2 ((run_advance_iff _ _).mpr hdone),
      rfl⟩

end

/-! ## One round -/

/-- A request that the driver knows, with the rings mapped where they are needed. -/
structure Op.Allowed (handle : EduDevice) (op : Op) : Prop where
  opcode : ValidOpcode op.req
  mapped : op.zc = true → handle.ringsMapped = true

/-- The device and the handler are done with kick number `kicks` before the last poll. -/
def Round.InTime (ms kicks calls : Nat) (op : Op) (r : Round) : Prop :=
  (errand (jobOf kicks ⟨calls, 0, op.req⟩)).Sublist (waited r.waiting (2 * ms))

instance (ms kicks calls : Nat) (op : Op) (r : Round) : Decidable (r.InTime ms kicks calls op) :=
  inferInstanceAs (Decidable (List.Sublist _ _))

theorem meanwhile_ready (h : p.board.Ready factorial kicks calls) {es : List BoardEvent}
    (hes : Elsewhere es) : (p.meanwhile factorial es).board.Ready factorial kicks calls :=
  h.events hes.background

/-- What `submit` and `submit_zc` do before the ioctl. -/
def Port.entry (factorial : BitVec 32 → BitVec 32) (p : Port) (op : Op) (r : Round) : Port :=
  let p := p.meanwhile factorial r.before
  (if op.zc then p.write op.req else p).meanwhile factorial r.entering

theorem submit_entry {op : Op} (hop : op.Allowed p.handle) (r : Round) :
    p.submit factorial op r = (p.entry factorial op r).ioctlSubmit factorial op.req r.kicking := by
  unfold Port.submit Port.entry
  cases hzc : op.zc with
  | false => rfl
  | true =>
    have hmapped : (p.meanwhile factorial r.before).handle.ringsMapped = true := hop.mapped hzc
    simp only [hmapped, if_true]

theorem entry_ready (h : p.board.Ready factorial kicks calls) (op : Op) {r : Round} (hr : r.Elsewhere) :
    (p.entry factorial op r).board.Ready factorial kicks calls := by
  have hbefore := meanwhile_ready h hr.before
  unfold Port.entry
  refine meanwhile_ready ?_ hr.entering
  split_ifs
  · exact hbefore.write p.handle op.req
  · exact hbefore

theorem submit_ready (h : p.board.Ready factorial kicks calls) {op : Op} (hop : op.Allowed p.handle)
    {r : Round} (hr : r.Elsewhere) :
    let c : Cmd := ⟨calls, 0, op.req⟩
    (p.submit factorial op r).2 = .ok () ∧
      Progress factorial c kicks (errand (jobOf kicks c)) (p.submit factorial op r).1.board := by
  intro c
  rw [submit_entry hop]
  exact ioctlSubmit_ready (entry_ready h op hr) hop.opcode hr.kicking

theorem roundTrip_ends {timeoutMs : CInt} {ms : Nat} (hms : timeoutMs.val = ms) (hfits : ms ≤ 2147483)
    (h : p.board.Ready factorial kicks calls) {op : Op} (hop : op.Allowed p.handle)
    {r : Round} (hr : r.Elsewhere) :
    let (p', result) := p.roundTrip factorial timeoutMs op r
    r.InTime ms kicks calls op ∧ result = .ok (answer factorial op.req) ∧
        p'.board.Ready factorial (kicks + 1) (calls + 1) ∨
      ¬ r.InTime ms kicks calls op ∧ result = .error .timeout := by
  obtain ⟨hok, hprogress⟩ := submit_ready h hop hr
  have hwait := hprogress.wait hop.opcode hr.waiting hms hfits
  generalize hsubmit : p.submit factorial op r = q at hok hprogress hwait
  obtain ⟨q, ret⟩ := q
  obtain rfl : ret = .ok () := hok
  simp only [Port.roundTrip, hsubmit]
  generalize q.wait factorial r.waiting timeoutMs = w at hwait ⊢
  obtain ⟨q', result⟩ := w
  rcases hwait with ⟨htime, hresult, hready⟩ | ⟨hlate, hresult⟩
  · obtain rfl : result = .completion (answer factorial op.req) := hresult
    have hstatus : ¬ (op.checked = true ∧ (answer factorial op.req).status ≠ 0) := by simp [answer]
    simp only [if_neg hstatus]
    exact .inl ⟨htime, trivial, hready⟩
  · obtain rfl : result = .nullopt := hresult
    exact .inr ⟨hlate, rfl⟩

/-! ### The mapping stays -/

theorem advance_mapped (handle : EduDevice) (ret : Except Errno Unit) :
    (handle.advance ret).ringsMapped = handle.ringsMapped := by
  cases ret <;> rfl

theorem submit_mapped (factorial : BitVec 32 → BitVec 32) (p : Port) (op : Op) (r : Round) :
    (p.submit factorial op r).1.handle.ringsMapped = p.handle.ringsMapped := by
  simp only [Port.submit]
  split_ifs
  · exact advance_mapped _ _
  · rfl
  · exact advance_mapped _ _

theorem afterPolls_handle (waiting : Nat → List BoardEvent) (n : Nat) :
    (p.afterPolls factorial waiting n).handle = p.handle := by
  induction n with
  | zero => rfl
  | succ n ih => exact ih

theorem roundTrip_mapped (factorial : BitVec 32 → BitVec 32) (p : Port) (timeoutMs : CInt) (op : Op)
    (r : Round) :
    (p.roundTrip factorial timeoutMs op r).1.handle.ringsMapped = p.handle.ringsMapped := by
  have hsubmit := submit_mapped factorial p op r
  unfold Port.roundTrip
  split
  · next heq => rwa [heq] at hsubmit
  · next q heq =>
    rw [heq] at hsubmit
    have hwait : (q.wait factorial r.waiting timeoutMs).1.handle = q.handle :=
      afterPolls_handle r.waiting _
    split <;> next heq =>
      rw [heq] at hwait
      first
        | exact (congrArg EduDevice.ringsMapped hwait).trans hsubmit
        | split_ifs <;> exact (congrArg EduDevice.ringsMapped hwait).trans hsubmit

/-! ## All rounds -/

/-- Every round is in time. -/
def Punctual (ms : Nat) : Nat → Nat → List (Op × Round) → Prop
  | _, _, [] => True
  | kicks, calls, (op, r) :: todo =>
    r.InTime ms kicks calls op ∧ Punctual ms (kicks + 1) (calls + 1) todo

def answers (factorial : BitVec 32 → BitVec 32) (todo : List (Op × Round)) :
    List EduCompletionReq :=
  todo.map fun t => answer factorial t.1.req

/-- What a program gets that asks for `todo`. -/
structure Served (factorial : BitVec 32 → BitVec 32) (kicks calls : Nat) (todo : List (Op × Round))
    (served : Port × List EduCompletionReq × Option Stop) : Prop where
  answers : served.2.1 <+: answers factorial todo
  stop : served.2.2 = none ∨ served.2.2 = some .timeout
  all : served.2.2 = none → served.2.1 = Edu.answers factorial todo ∧
    served.1.board.Ready factorial (kicks + todo.length) (calls + todo.length)

theorem serve_served {timeoutMs : CInt} {ms : Nat} (hms : timeoutMs.val = ms) (hfits : ms ≤ 2147483)
    {todo : List (Op × Round)} (h : p.board.Ready factorial kicks calls)
    (hops : ∀ t ∈ todo, t.1.Allowed p.handle ∧ t.2.Elsewhere) :
    let served := p.serve factorial timeoutMs todo
    Served factorial kicks calls todo served ∧ (served.2.2 = none ↔ Punctual ms kicks calls todo) := by
  induction todo generalizing p kicks calls with
  | nil => exact ⟨⟨List.prefix_refl _, .inl rfl, fun _ => ⟨rfl, h⟩⟩, iff_of_true rfl trivial⟩
  | cons t todo ih =>
    obtain ⟨op, r⟩ := t
    obtain ⟨hop, hr⟩ := hops (op, r) List.mem_cons_self
    have hround := roundTrip_ends hms hfits h hop hr
    have hmapped := roundTrip_mapped factorial p timeoutMs op r
    simp only [Port.serve]
    generalize p.roundTrip factorial timeoutMs op r = q at hround hmapped ⊢
    obtain ⟨q, result⟩ := q
    rcases hround with ⟨htime, hresult, hready⟩ | ⟨hlate, hresult⟩
    · obtain rfl : result = .ok (answer factorial op.req) := hresult
      have hrest : ∀ t ∈ todo, t.1.Allowed q.handle ∧ t.2.Elsewhere := by
        intro t ht
        obtain ⟨hallowed, helsewhere⟩ := hops t (List.mem_cons_of_mem _ ht)
        exact ⟨⟨hallowed.opcode, fun hzc => hmapped.trans (hallowed.mapped hzc)⟩, helsewhere⟩
      obtain ⟨hserved, hiff⟩ := ih hready hrest
      refine ⟨⟨?_, hserved.stop, fun hnone => ?_⟩, ?_⟩
      · exact (List.prefix_cons_inj _).mpr hserved.answers
      · obtain ⟨hall, hend⟩ := hserved.all hnone
        refine ⟨congrArg (answer factorial op.req :: ·) hall, ?_⟩
        rw [List.length_cons, ← Nat.add_assoc, ← Nat.add_assoc, Nat.add_right_comm kicks,
          Nat.add_right_comm calls]
        exact hend
      · exact hiff.trans (and_iff_right htime).symm
    · obtain rfl : result = .error .timeout := hresult
      exact ⟨⟨List.nil_prefix, .inr rfl, nofun⟩, iff_of_false nofun fun hall => hlate hall.1⟩

/-! ## From the open -/

/-- The device has nothing to do, whatever is left in the rings. -/
structure Board.DeviceRests (b : Board) : Prop where
  unkicked : b.unkicked = []
  running : b.running = []
  finished : b.finished = []
  irqStat : b.irqStat = 0
  handler : b.handler = none

/-- The constructor of `EduDevice`: the open and the registration of an eventfd. -/
def Port.construct (factorial : BitVec 32 → BitVec 32) (b : Board) (ctx : Nat) : Port :=
  ⟨run (boardStep factorial) b [.driver (.open 0), .driver (.setEventfd ctx)], ⟨false, 0⟩⟩

/-- `map_rings`, where `mmap` works. -/
def Port.mapRings (p : Port) : Port := { p with handle.ringsMapped := true }

theorem construct_ready (hinv : BoardInv factorial b) (hrests : b.DeviceRests) (ctx : Nat) :
    (Port.construct factorial b ctx).board.Ready factorial b.kicks b.sys.calls := by
  have hopened : (boardStep factorial b (.driver (.open 0))).Ready factorial b.kicks b.sys.calls := by
    refine ⟨⟨hinv.step _, ⟨?_, hrests.running, hrests.finished, hrests.irqStat, hrests.handler⟩,
      hrests.unkicked, rfl, rfl, rfl⟩, rfl⟩
    exact inUse_open b.sys.dev
  exact hopened.event trivial

/-- The handle of a program, with its rings mapped or not. -/
def Port.start (factorial : BitVec 32 → BitVec 32) (b : Board) (ctx : Nat) (mapped : Bool) : Port :=
  if mapped then (construct factorial b ctx).mapRings else construct factorial b ctx

theorem start_ready (hinv : BoardInv factorial b) (hrests : b.DeviceRests) (ctx : Nat) (mapped : Bool) :
    (Port.start factorial b ctx mapped).board.Ready factorial b.kicks b.sys.calls := by
  cases mapped <;> exact construct_ready hinv hrests ctx

theorem start_mapped (ctx : Nat) (mapped : Bool) :
    (Port.start factorial b ctx mapped).handle.ringsMapped = mapped := by
  cases mapped <;> rfl

/-- **A program that waits for each of its commands gets the right answers in the right order.** It
may share the machine with anything that does not call the driver, and come after any history that
has left the device at rest. Only a timeout can stop it, and one does exactly if the device or the
handler was late. -/
theorem round_trips_served (factorial : BitVec 32 → BitVec 32) (d : EduDev) (fact : BitVec 32)
    (history : List BoardEvent) (ctx : Nat) (mapped : Bool) (timeoutMs : CInt)
    (todo : List (Op × Round))
    (hrests : (run (boardStep factorial) (.powered d fact) history).DeviceRests)
    (h0 : 0 ≤ timeoutMs.val) (hfits : timeoutMs.val ≤ 2147483)
    (hops : ∀ t ∈ todo, ValidOpcode t.1.req ∧ (t.1.zc = true → mapped = true) ∧ t.2.Elsewhere) :
    let b := run (boardStep factorial) (.powered d fact) history
    let served := (Port.start factorial b ctx mapped).serve factorial timeoutMs todo
    Served factorial b.kicks b.sys.calls todo served ∧
      (served.2.2 = none ↔ Punctual timeoutMs.val.toNat b.kicks b.sys.calls todo) := by
  intro b served
  obtain ⟨ms, hms⟩ := Int.eq_ofNat_of_zero_le h0
  have hready := start_ready (.reachable d fact history) hrests ctx mapped
  rw [hms, Int.toNat_natCast]
  refine serve_served hms (by omega) hready fun t ht => ?_
  obtain ⟨hop, hzc, helsewhere⟩ := hops t ht
  exact ⟨⟨hop, fun hcopy => (start_mapped ctx mapped).trans (hzc hcopy)⟩, helsewhere⟩

end

/-- In time for a timeout of 1 ms: the device is done before the first poll, the handler before the
second. -/
def swiftRound (kicks calls : Nat) (op : Op) : Round where
  before := []
  entering := [.driver .resetStats]
  kicking := []
  waiting
    | 0 => [.finish (jobOf kicks ⟨calls, 0, op.req⟩), .driver (.setEventfd 4)]
    | 1 => [.irqEnter, .driver .resetStats, .irqPost]
    | _ => []

theorem swiftRound_elsewhere (kicks calls : Nat) (op : Op) :
    (swiftRound kicks calls op).Elsewhere where
  before := nofun
  entering := by simp [swiftRound, Elsewhere, BoardEvent.Background]
  kicking := nofun
  waiting := by
    intro n
    match n with
    | 0 | 1 => simp [swiftRound, Elsewhere, BoardEvent.Background]
    | n + 2 => nofun

theorem swiftRound_inTime {ms : Nat} (hms : 1 ≤ ms) (kicks calls : Nat) (op : Op) :
    (swiftRound kicks calls op).InTime ms kicks calls op := by
  have htwo : (errand (jobOf kicks ⟨calls, 0, op.req⟩)).Sublist
      (waited (swiftRound kicks calls op).waiting 2) := by
    simp [errand, waited, swiftRound, List.range_succ]
  exact htwo.trans (waited_le _ (by omega)).sublist

/-- One such round for each request. -/
def swiftRounds : Nat → Nat → List Op → List Round
  | _, _, [] => []
  | kicks, calls, op :: ops => swiftRound kicks calls op :: swiftRounds (kicks + 1) (calls + 1) ops

theorem swiftRounds_length (kicks calls : Nat) (ops : List Op) :
    (swiftRounds kicks calls ops).length = ops.length := by
  induction ops generalizing kicks calls with
  | nil => rfl
  | cons op ops ih => exact congrArg Nat.succ (ih _ _)

theorem swiftRounds_elsewhere (kicks calls : Nat) (ops : List Op) :
    ∀ r ∈ swiftRounds kicks calls ops, r.Elsewhere := by
  induction ops generalizing kicks calls with
  | nil => exact List.forall_mem_nil _
  | cons op ops ih => exact List.forall_mem_cons.mpr ⟨swiftRound_elsewhere kicks calls op, ih _ _⟩

theorem swiftRounds_punctual {ms : Nat} (hms : 1 ≤ ms) (kicks calls : Nat) (ops : List Op) :
    Punctual ms kicks calls (ops.zip (swiftRounds kicks calls ops)) := by
  induction ops generalizing kicks calls with
  | nil => trivial
  | cons op ops ih => exact ⟨swiftRound_inTime hms kicks calls op, ih _ _⟩

/-- One zero-copy and one plain round trip, after another program that never read its completion. -/
theorem round_trips_served_two :
    let c : Cmd := ⟨0, 5, ⟨9, eduOpDmaTest, 0⟩⟩
    let history : List BoardEvent :=
      [.driver (.submit 5 c.req), .kick c, .finish (jobOf 0 c), .irqEnter, .irqPost]
    let b := run (boardStep factorial32) (.powered freshDev 0) history
    let first : Op := ⟨true, true, ⟨7, eduOpFactorial, 5⟩⟩
    let second : Op := ⟨false, false, ⟨8, eduOpDmaTest, 0⟩⟩
    let todo := [(first, swiftRound 1 1 first), (second, swiftRound 2 2 second)]
    let served := (Port.start factorial32 b 3 true).serve factorial32 ⟨1, by decide, by decide⟩ todo
    served.2.1 = [⟨7, 0, 120⟩, ⟨8, 0, 0⟩] ∧ served.2.2 = none := by
  intro c history b first second todo served
  have hops : ∀ t ∈ todo, ValidOpcode t.1.req ∧ (t.1.zc = true → true = true) ∧ t.2.Elsewhere := by
    intro t ht
    simp only [todo, List.mem_cons, List.not_mem_nil, or_false] at ht
    rcases ht with rfl | rfl
    · exact ⟨by decide, fun _ => rfl, swiftRound_elsewhere 1 1 first⟩
    · exact ⟨by decide, fun _ => rfl, swiftRound_elsewhere 2 2 second⟩
  obtain ⟨hserved, hiff⟩ := round_trips_served factorial32 freshDev 0 history 3 true
    ⟨1, by decide, by decide⟩ todo ⟨by decide, by decide, by decide, by decide, by decide⟩
    (by decide) (by decide) hops
  have hstop : served.2.2 = none := hiff.mpr ⟨by decide, by decide, trivial⟩
  exact ⟨(hserved.all hstop).1.trans (by decide), hstop⟩

end PcieDriver.Edu
