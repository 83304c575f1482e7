import PcieDriver.Edu.LegacyPrograms
import PcieDriver.Edu.Session

/-!
# The demo

`main` of `demo.cpp` goes through both paths of the driver. What it prints is known in advance, if
the device and the handler do their part in time.
-/

open Base

namespace PcieDriver.Edu

/-! ## Programs without their schedule -/

inductive Ask
  | call (c : Call)
  | trip (timeoutMs : CInt) (op : Op)
  | mapRings
  | unmapRings
  | storeFault (parsed : Except StoreErr (BitVec 32)) (count : Nat)
  | showFault

def Action.ask : Action → Ask
  | .call t => .call t.call
  | .trip timeoutMs op _ => .trip timeoutMs op
  | .mapRings => .mapRings
  | .unmapRings => .unmapRings
  | .storeFault parsed count => .storeFault parsed count
  | .showFault => .showFault

namespace Session

/-- What the action comes to when all goes well. -/
def right (s : Session) : Ask → Session × Upshot
  | .call c =>
    let (r, ret) := s.record.right c
    ({ s with record := r }, .returned ret)
  | .trip _ op => s.complete factorial32 op.req
  | .mapRings => ({ s with mapped := true }, .done)
  | .unmapRings => ({ s with mapped := false }, .done)
  | .storeFault parsed count => s.store parsed count
  | .showFault => (s, .fault s.record.fault)

def rights (s : Session) : List Ask → List Upshot
  | [] => []
  | ask :: asks => (s.right ask).2 :: (s.right ask).1.rights asks

end Session

/-- The interrupts of the call are handled in its waits, and the device returns the pattern. -/
def FineTurn.Good (y : Tally) (t : FineTurn) : Prop :=
  t.Served y ∧ (t.call = .dmaTest → t.second.back = pattern)

/-- The device and the handler are in time, and the device returns what it ought to. -/
def Action.Good (y : Tally) : Action → Prop
  | .call t => t.Good y
  | .trip timeoutMs op r => r.InTime y timeoutMs.val.toNat op
  | _ => True

/-- Every action is. -/
def GoesWell : Tally → List Action → Prop
  | _, [] => True
  | y, a :: as => a.Good y ∧ GoesWell (a.next y) as

/-! ### Programs that check what they get -/

/-- A small operand, the rings mapped where they are written, and a look at `inject_fault` after a DMA
test with the fault armed. -/
def Ask.fits (mapped armed : Bool) (asks : List Ask) : Ask → Bool
  | .call (.factorial n) => n.toNat ≤ 12
  | .call .dmaTest => !armed || (asks.head? matches some .showFault)
  | .trip _ op => op.req.operand.toNat ≤ 12 && (!op.zc || mapped)
  | _ => true

def Ask.maps (mapped : Bool) : Ask → Bool
  | .mapRings => true
  | .unmapRings => false
  | _ => mapped

def Ask.arms (armed : Bool) : Ask → Bool
  | .call .dmaTest => false
  | .storeFault (.ok val) _ => if 1 < val then armed else val = 1
  | _ => armed

def Checked (mapped armed : Bool) : List Ask → Bool
  | [] => true
  | ask :: asks => ask.fits mapped armed asks && Checked (ask.maps mapped) (ask.arms armed) asks

/-! ## The demo -/

def asyncTimeout : CInt := ⟨2000, by decide, by decide⟩
def throughputTimeout : CInt := ⟨5000, by decide, by decide⟩

def demoAsync : List Ask :=
  (factorialOps false false (· + 1) 8).map (.trip asyncTimeout) ++
    [.trip asyncTimeout ⟨false, false, ⟨0xFF, eduOpDmaTest, 0⟩⟩]

def demoMmap : List Ask :=
  [.mapRings, .trip asyncTimeout (factorialOp true false 42 7), .unmapRings]

/-- Without access to sysfs it is skipped. -/
def demoFault (sysfs : Bool) : List Ask :=
  if sysfs then [.storeFault (.ok 1) 2, .call .dmaTest, .showFault, .call .dmaTest] else []

def demoMain (sysfs : Bool) : List Ask :=
  demoLegacy.map .call ++ demoAsync ++ demoMmap ++ demoFault sysfs ++
    demoThroughput.map (.trip throughputTimeout)

/-- What it gets. What it prints of that without sysfs is in `results/demo_output.txt`. -/
def demoOutput (sysfs : Bool) : List Upshot :=
  [0, 1, 5, 10, 12].map (fun n =>
    .returned (.ok (.factorial ⟨.ofNat 32 n, .ofNat 32 n.factorial, 0x001⟩))) ++
  [.returned (.ok .dmaTest), .returned (.ok (.state ⟨0x100, 12, 479001600, 1⟩))] ++
  (List.range 8).map (fun i => .completed ⟨.ofNat 16 i, 0, .ofNat 32 (i + 1).factorial⟩) ++
  [.completed ⟨255, 0, 0⟩] ++
  [.done, .completed ⟨42, 0, 5040⟩, .done] ++
  (if sysfs then
    [.stored (.ok 2), .returned (.error .eio), .fault 0, .returned (.ok .dmaTest)] else []) ++
  (List.range 64).map (fun i => .completed ⟨.ofNat 16 i, 0, .ofNat 32 (i % 12 + 1).factorial⟩)

theorem demo_checked (sysfs : Bool) : Checked false false (demoMain sysfs) = true := by
  cases sysfs <;> decide

/-! ## When all goes well -/

section
variable {factorial : BitVec 32 → BitVec 32} {s : Session} {y : Tally} {a : Action}

theorem right_mapped (s : Session) (ask : Ask) : (s.right ask).1.mapped = ask.maps s.mapped := by
  cases ask <;> rfl

theorem right_armed {armed : Bool} (h : s.record.fault = 1 ↔ armed = true) (ask : Ask) :
    (s.right ask).1.record.fault = 1 ↔ ask.arms armed = true := by
  cases ask with
  | call c =>
    cases c with
    | factorial | getState => exact h
    | dmaTest =>
      refine iff_of_false ?_ Bool.false_ne_true
      show (s.record.tests pattern).1.fault ≠ 1
      by_cases hfault : s.record.fault = 1
      · rw [tests_fault hfault]
        exact (by decide : (0 : BitVec 32) ≠ 1)
      · rw [tests_right hfault]
        exact hfault
  | storeFault parsed count =>
    simp only [Session.right, Session.store, Record.store, Ask.arms]
    cases parsed with
    | error => exact h
    | ok val =>
      dsimp only
      split_ifs
      · exact h
      · exact decide_eq_true_iff.symm
  | _ => exact h

theorem right_last (s : Session) (ask : Ask) : (s.right ask).2.last = false := by
  cases ask with
  | call c =>
    have hontime := right_on_time s.record c
    simp only [Session.right]
    generalize (s.record.right c).2 = ret at hontime
    cases ret with
    | ok => rfl
    | error err => cases err <;> first | rfl | exact absurd rfl hontime
  | _ => rfl

theorem answer_small (hdev : Computes factorial) {req : EduSubmitReq}
    (hsmall : req.operand.toNat ≤ 12) : answer factorial req = answer factorial32 req := by
  simp only [answer, expected, computes_eq hdev hsmall]

theorem reply_good (hdev : Computes factorial) {r : Record} {t : FineTurn} (hsmall : t.call.Small)
    (hgood : t.Good y) :
    r.reply factorial (t.Served y) t.second.back t.call = r.right t.call := by
  obtain ⟨hserved, hback⟩ := hgood
  rw [decide_eq_true hserved]
  unfold Record.reply Record.right
  cases hcall : t.call with
  | factorial n =>
    rw [hcall] at hsmall
    simp only [if_true, computes_eq hdev hsmall]
  | dmaTest => simp only [if_true, hback hcall]
  | getState => rfl

theorem not_good {t : FineTurn} (hbad : ¬ t.Good y) (hserved : t.Served y) :
    t.call = .dmaTest ∧ t.second.back ≠ pattern :=
  Classical.not_imp.mp fun hback => hbad ⟨hserved, hback⟩

theorem reply_bad {r : Record} {t : FineTurn} (hfault : t.call = .dmaTest → r.fault ≠ 1)
    (hbad : ¬ t.Good y) :
    (r.reply factorial (t.Served y) t.second.back t.call).2 ≠ (r.right t.call).2 := by
  by_cases hserved : t.Served y
  · obtain ⟨hcall, hback⟩ := not_good hbad hserved
    rw [decide_eq_true hserved, hcall]
    simp only [Record.reply, Record.right, if_true, tests_wrong hback, tests_right (hfault hcall)]
    rintro ⟨⟩
  · have hontime := right_on_time r t.call
    rw [decide_eq_false hserved]
    cases hcall : t.call with
    | factorial | dmaTest =>
      rw [hcall] at hontime
      exact hontime.symm
    | getState =>
      refine absurd ?_ hserved
      unfold FineTurn.Served
      rw [hcall]
      trivial

/-- An error that is not the injected one leaves the fault armed. -/
theorem reply_fault {r : Record} {t : FineTurn} (hcall : t.call = .dmaTest) (hbad : ¬ t.Good y) :
    (r.reply factorial (t.Served y) t.second.back t.call).1.fault = r.fault := by
  rw [hcall]
  simp only [Record.reply, decide_eq_true_eq]
  split_ifs with hserved
  · rw [tests_wrong (not_good hbad hserved).2]
  · rfl

theorem act_good (hdev : Computes factorial) {armed : Bool} {asks : List Ask}
    (hfits : a.ask.fits s.mapped armed asks = true) (hgood : a.Good y) :
    s.act factorial y a = s.right a.ask := by
  cases a with
  | call t =>
    have hsmall : t.call.Small := by
      simp only [Action.ask] at hfits
      cases hcall : t.call with
      | factorial n =>
        rw [hcall] at hfits
        exact of_decide_eq_true hfits
      | dmaTest | getState => trivial
    simp only [Session.act, Session.call, Action.ask, Session.right, reply_good hdev hsmall hgood]
  | trip timeoutMs op r =>
    simp only [Action.ask, Ask.fits, Bool.and_eq_true, decide_eq_true_eq, Bool.or_eq_true,
      Bool.not_eq_true'] at hfits
    have hmapped : ¬ (op.zc = true ∧ s.mapped = false) := by
      rintro ⟨hzc, hunmapped⟩
      rw [hzc, hunmapped] at hfits
      rcases hfits.2 with h | h <;> cases h
    simp only [Session.act, Session.trip, if_neg hmapped, Action.ask, Session.right, Session.complete,
      answer_small hdev hfits.1]
    exact if_pos hgood
  | mapRings | unmapRings | storeFault | showFault => rfl

/-- What goes wrong is seen at once, but for a DMA test with the fault armed. -/
theorem act_bad (hbad : ¬ a.Good y) :
    (s.act factorial y a).2 ≠ (s.right a.ask).2 ∨
      a.ask = .call .dmaTest ∧ s.record.fault = 1 ∧ (s.act factorial y a).1.record.fault = 1 := by
  cases a with
  | call t =>
    by_cases harmed : t.call = .dmaTest ∧ s.record.fault = 1
    · exact .inr ⟨congrArg Ask.call harmed.1, harmed.2, (reply_fault harmed.1 hbad).trans harmed.2⟩
    · refine .inl fun heq => ?_
      exact reply_bad (fun hcall hfault => harmed ⟨hcall, hfault⟩) hbad (Upshot.returned.inj heq)
  | trip timeoutMs op r =>
    refine .inl ?_
    simp only [Session.act, Session.trip, Action.ask, Session.right, Session.complete]
    split_ifs with hunmapped hin
    · rintro ⟨⟩
    · exact absurd hin hbad
    · rintro ⟨⟩
  | mapRings | unmapRings | storeFault | showFault => exact absurd trivial hbad

/-! ## Whole programs -/

theorem outcomes_head (factorial : BitVec 32 → BitVec 32) (s : Session) (y : Tally) (a : Action)
    (as : List Action) :
    (s.outcomes factorial y (a :: as)).head? = some (s.act factorial y a).2 := by
  simp only [Session.outcomes]
  split_ifs <;> rfl

theorem outcomes_cons {as : List Action} (h : (s.act factorial y a).2.last = false) :
    s.outcomes factorial y (a :: as) =
      (s.act factorial y a).2 :: (s.act factorial y a).1.outcomes factorial (a.next y) as := by
  simp only [Session.outcomes, h, Bool.false_eq_true, if_false]

theorem fits_armed {mapped : Bool} {asks : List Ask}
    (h : Ask.fits mapped true asks (.call .dmaTest) = true) : asks.head? = some .showFault := by
  cases asks with
  | nil => cases h
  | cons ask asks =>
    cases ask with
    | showFault => rfl
    | _ => cases h

theorem armed_seen {as : List Action} (hfault : s.record.fault = 1) {s' : Session}
    (hfault' : s'.record.fault = 0) (hnext : (as.map Action.ask).head? = some .showFault) :
    s.outcomes factorial y as ≠ s'.rights (as.map Action.ask) := by
  obtain ⟨a, as, rfl⟩ : ∃ a as', as = a :: as' := by
    cases as with
    | nil => cases hnext
    | cons a as => exact ⟨a, as, rfl⟩
  have hask : a.ask = .showFault := Option.some.inj hnext
  cases a with
  | showFault =>
    intro heq
    have hhead := (outcomes_head factorial s y .showFault as).symm.trans (congrArg List.head? heq)
    have hval : s.record.fault = s'.record.fault := Upshot.fault.inj (Option.some.inj hhead)
    rw [hfault, hfault'] at hval
    cases hval
  | call | trip | mapRings | unmapRings | storeFault => cases hask

/-- **A program that checks what it gets gets what it ought to exactly if all goes well.** -/
theorem outcomes_iff (hdev : Computes factorial) (armed : Bool)
    (harmed : s.record.fault = 1 ↔ armed = true) {as : List Action}
    (hchecked : Checked s.mapped armed (as.map Action.ask) = true) :
    s.outcomes factorial y as = s.rights (as.map Action.ask) ↔ GoesWell y as := by
  induction as generalizing s y armed with
  | nil => exact iff_of_true rfl trivial
  | cons a as ih =>
    rw [List.map_cons, Checked, Bool.and_eq_true] at hchecked
    obtain ⟨hfits, hrest⟩ := hchecked
    rw [List.map_cons, Session.rights, GoesWell]
    by_cases hgood : a.Good y
    · have hact := act_good hdev hfits hgood
      rw [outcomes_cons (hact ▸ right_last s a.ask), hact, List.cons.injEq, and_iff_right rfl,
        and_iff_right hgood]
      exact ih _ (right_armed harmed a.ask) (by rwa [right_mapped])
    · refine iff_of_false (fun heq => ?_) fun h => hgood h.1
      have hhead := (outcomes_head factorial s y a as).symm.trans (congrArg List.head? heq)
      have hsame : (s.act factorial y a).2 = (s.right a.ask).2 := Option.some.inj hhead
      rcases act_bad hgood with hdiffers | ⟨hask, hfault, hkept⟩
      · exact hdiffers hsame
      · rw [outcomes_cons (hsame ▸ right_last s a.ask)] at heq
        have hcleared : (s.right a.ask).1.record.fault = 0 := by
          rw [hask]
          show (s.record.tests pattern).1.fault = 0
          rw [tests_fault hfault]
        refine armed_seen hkept hcleared ?_ (List.cons.inj heq).2
        rw [hask, harmed.mp hfault] at hfits
        exact fits_armed hfits

/-! ## What the demo prints -/

theorem rights_dmaTest (hfault : s.record.fault ≠ 1) (asks : List Ask) :
    s.rights (.call .dmaTest :: asks) = .returned (.ok .dmaTest) ::
      Session.rights { s with
        record.state := { s.record.state with lastIrq := 0x100, dmaOk := 1 } } asks := by
  simp only [Session.rights, Session.right, Record.right, tests_right hfault]
  rfl

theorem rights_demo (hfault : s.record.fault ≠ 1) (sysfs : Bool) :
    s.rights (demoMain sysfs) = demoOutput sysfs := by
  let asks : List Ask := .call .getState :: demoAsync ++ demoMmap ++ demoFault sysfs ++
    demoThroughput.map (.trip throughputTimeout)
  let s' : Session := { s with
    record.state := { s.record.state with
      lastIrq := 0x001, lastFactIn := 12, lastFactOut := 479001600 } }
  have hstart : s.rights (demoMain sysfs) =
      [0, 1, 5, 10, 12].map (fun n =>
        .returned (.ok (.factorial ⟨.ofNat 32 n, .ofNat 32 n.factorial, 0x001⟩))) ++
          s'.rights (.call .dmaTest :: asks) := by
    cases sysfs <;> rfl
  have hfault' : s'.record.fault ≠ 1 := hfault
  rw [hstart, rights_dmaTest hfault']
  cases sysfs <;> rfl

/-- **The demo gets what it ought to exactly if all goes well**: every interrupt is handled in the wait
that is for it, and the device returns the pattern of each legacy DMA test. -/
theorem demo_passes_iff (hdev : Computes factorial) (d : EduDev) (fact : BitVec 32)
    (history : List FineEvent) (ctx : Nat) (sysfs : Bool) (actions : List Action)
    (hrests : (run (fineStep factorial) (.powered d fact) history).DeviceRests)
    (hpc : (run (fineStep factorial) (.powered d fact) history).board.sys.pc = .idle)
    (hfault : (run (fineStep factorial) (.powered d fact) history).board.sys.dev.injectFault ≠ 1)
    (hactions : ∀ a ∈ actions, a.Allowed)
    (hsettled : Settled (.of (run (fineStep factorial) (.powered d fact) history)) actions)
    (hdemo : actions.map Action.ask = demoMain sysfs) :
    let f := run (fineStep factorial) (.powered d fact) history
    (FinePort.construct factorial f ctx).session factorial actions = demoOutput sysfs ↔
      GoesWell (.of f) actions := by
  intro f
  have hshows : (Session.start f).Shows factorial (.of f) (FinePort.construct factorial f ctx) :=
    start_shows (.reachable d fact history) hrests hpc ctx
  have hdisarmed : (Session.start f).record.fault ≠ 1 := hfault
  rw [session_outcomes hshows hactions hsettled, ← rights_demo hdisarmed, ← hdemo]
  refine outcomes_iff hdev false (iff_of_false hdisarmed Bool.false_ne_true) ?_
  rw [hdemo]
  exact demo_checked sysfs

end

/-! ### A device that is never late -/

/-- The action with all that it needs, as soon as it needs it. -/
def Ask.prompt (y : Tally) : Ask → Action
  | .call (.factorial n) =>
    .call ⟨.factorial n, [], settledLeg (legacyJob y.kicks (.factorial n)) [], ⟨[], []⟩⟩
  | .call .dmaTest => .call ⟨.dmaTest, [], settledLeg (legacyJob y.kicks .dma) [],
      settledLeg (legacyJob (y.kicks + 1) .dma) [.driver (.dmaWrite pattern)]⟩
  | .call .getState => .call ⟨.getState, [], ⟨[], []⟩, ⟨[], []⟩⟩
  | .trip timeoutMs op => .trip timeoutMs op (hastyRound y.kicks y.calls op)
  | .mapRings => .mapRings
  | .unmapRings => .unmapRings
  | .storeFault parsed count => .storeFault parsed count
  | .showFault => .showFault

def prompt : Tally → List Ask → List Action
  | _, [] => []
  | y, ask :: asks => ask.prompt y :: prompt ((ask.prompt y).next y) asks

/-- A command that the driver knows, and at least a millisecond for it. -/
def Ask.Fair : Ask → Prop
  | .trip timeoutMs op => (1 ≤ timeoutMs.val ∧ timeoutMs.val ≤ 2147483) ∧ ValidOpcode op.req
  | _ => True

instance : (ask : Ask) → Decidable ask.Fair
  | .trip _ _ => inferInstanceAs (Decidable (_ ∧ _))
  | .call _ | .mapRings | .unmapRings | .storeFault _ _ | .showFault => isTrue trivial

theorem settledLeg_early (j : Job) (sent : List FineEvent) (owed : Bool) :
    run Debt.step ⟨fineErrand j, owed⟩ (settledLeg j sent).early = ⟨fineErrand j, false⟩ := by
  simp [settledLeg, run_cons, run_nil, Debt.step, fineErrand, advance]

theorem settledLeg_serves (j : Job) {sent : List FineEvent}
    (hsent : run Debt.step ⟨fineErrand j, false⟩ sent = ⟨fineErrand j, false⟩) (owed : Bool) :
    (settledLeg j sent).Serves ⟨fineErrand j, owed⟩ := by
  have hearly := settledLeg_early j sent owed
  refine ⟨fun hover => ?_, ?_⟩
  · rw [hearly] at hover
    cases hover.1
  · have hlate : run Debt.step ⟨fineErrand j, false⟩ (settledLeg j sent).late = ⟨[], false⟩ := by
      simp only [settledLeg, run_append, hsent]
      simp [run_cons, run_nil, Debt.step, fineErrand, advance]
    rw [run_append, hearly, hlate]
    exact ⟨rfl, rfl⟩

theorem settledLeg_settled (j : Job) (sent : List FineEvent) (owed : Bool) :
    (settledLeg j sent).Settled ⟨fineErrand j, owed⟩ := by
  intro howed
  rw [settledLeg_early] at howed
  cases howed

theorem written (j : Job) : run Debt.step ⟨fineErrand j, false⟩ [.driver (.dmaWrite pattern)] =
    ⟨fineErrand j, false⟩ := by
  simp [run_cons, run_nil, Debt.step, fineErrand, advance]

theorem settledLeg_back (j : Job) : (settledLeg j [.driver (.dmaWrite pattern)]).back = pattern := rfl

theorem hastyRound_inTime {ms : Nat} (hms : 1 ≤ ms) (y : Tally) (op : Op) :
    (hastyRound y.kicks y.calls op).InTime y ms op := by
  have hfound : (hastyRound y.kicks y.calls op).foundBy y op.req (2 * ms) = some 1 := by
    rw [FineRound.foundBy, List.find?_range_eq_some]
    refine ⟨?_, List.mem_range.mpr (by omega), fun n hn => ?_⟩
    · simp [FineRound.due, FineRound.claimed, fineWaited, hastyRound, List.range_succ, run_cons, run_nil,
        Debt.step, fineErrand, advance]
    · obtain rfl : n = 0 := by omega
      simp [FineRound.due, FineRound.claimed, fineWaited, hastyRound, List.range_succ, run_cons, run_nil,
        Debt.step, fineErrand, advance]
  rw [FineRound.InTime, hfound]
  rfl

theorem prompt_ask (y : Tally) (ask : Ask) : (ask.prompt y).ask = ask := by
  cases ask with
  | call c => cases c <;> rfl
  | _ => rfl

theorem prompt_good (y : Tally) {ask : Ask} (h : ask.Fair) : (ask.prompt y).Good y := by
  cases ask with
  | call c =>
    cases c with
    | factorial n => exact ⟨settledLeg_serves _ rfl _, by rintro ⟨⟩⟩
    | dmaTest =>
      exact ⟨⟨settledLeg_serves _ rfl _, settledLeg_serves _ (written _) _⟩, fun _ => settledLeg_back _⟩
    | getState => exact ⟨trivial, by rintro ⟨⟩⟩
  | trip timeoutMs op =>
    have htimeout := h.1
    exact hastyRound_inTime (by omega) y op
  | _ => trivial

theorem prompt_settled (y : Tally) (ask : Ask) : (ask.prompt y).Settled y := by
  cases ask with
  | call c =>
    cases c with
    | factorial | dmaTest => exact settledLeg_settled _ _ _
    | getState => trivial
  | _ => trivial

theorem prompt_allowed (y : Tally) {ask : Ask} (h : ask.Fair) : (ask.prompt y).Allowed := by
  have hempty : ∀ e ∈ ([] : List FineEvent), e.Ambient := List.forall_mem_nil _
  have hwrite : ∀ e ∈ [FineEvent.driver (.dmaWrite pattern)], e.Ambient :=
    List.forall_mem_singleton.mpr (List.forall_mem_singleton.mpr trivial)
  cases ask with
  | call c =>
    cases c with
    | factorial n => exact ⟨hempty, settledLeg_ambient _ hempty, hempty⟩
    | dmaTest => exact ⟨hempty, settledLeg_ambient _ hempty, settledLeg_ambient _ hwrite⟩
    | getState => exact ⟨hempty, hempty, hempty⟩
  | trip timeoutMs op =>
    have htimeout := h.1
    exact ⟨by omega, h.2, hastyRound_elsewhere y.kicks y.calls op⟩
  | _ => trivial

theorem prompt_runs {asks : List Ask} (h : ∀ ask ∈ asks, ask.Fair) (y : Tally) :
    (prompt y asks).map Action.ask = asks ∧ (∀ a ∈ prompt y asks, a.Allowed) ∧
      Settled y (prompt y asks) ∧ GoesWell y (prompt y asks) := by
  induction asks generalizing y with
  | nil => exact ⟨rfl, List.forall_mem_nil _, trivial, trivial⟩
  | cons ask asks ih =>
    rw [List.forall_mem_cons] at h
    obtain ⟨hasks, hallowed, hsettled, hwell⟩ := ih h.2 ((ask.prompt y).next y)
    refine ⟨?_, ?_, ⟨prompt_settled y ask, hsettled⟩, prompt_good y h.1, hwell⟩
    · rw [prompt, List.map_cons, prompt_ask, hasks]
    · exact List.forall_mem_cons.mpr ⟨prompt_allowed y h.1, hallowed⟩

theorem fair_demoMain (sysfs : Bool) : ∀ ask ∈ demoMain sysfs, ask.Fair := by
  cases sysfs <;> decide

/-- With a device that is never late, after a program that never read its completion. The handler owes
a `complete_all` at the start and after each command of the rings. -/
theorem demo_passes_iff_prompt :
    let c : Cmd := ⟨0, 5, ⟨9, eduOpDmaTest, 0⟩⟩
    let history : List FineEvent := [.driver (.submit 5 c.req), .kick c, .finish (jobOf 0 c),
      .irqRead, .irqAck, .irqPost]
    let f := run (fineStep factorial32) (.powered freshDev 0) history
    (FinePort.construct factorial32 f 3).session factorial32 (prompt (.of f) (demoMain true)) =
      demoOutput true := by
  intro c history f
  obtain ⟨hasks, hallowed, hsettled, hwell⟩ := prompt_runs (fair_demoMain true) (.of f)
  exact (demo_passes_iff factorial32_computes freshDev 0 history 3 true _
    ⟨⟨by decide, by decide, by decide, by decide, by decide⟩, by decide⟩ (by decide) (by decide)
    hallowed hsettled hasks).mpr hwell

end PcieDriver.Edu
