import PcieDriver.Edu.Handler
import PcieDriver.Edu.Serving

/-!
# A `complete_all` that is owed

`complete_all` is the last step of the handler, and comes after the completion is posted and signalled.
A program can have its completion and go on while it is owed, and until it has come the handler does
not start again. For the one job under way the rest is as with a handler of two steps.
-/

open Base

namespace PcieDriver.Edu

/-! ## What every step keeps -/

structure FineInv (factorial : BitVec 32 → BitVec 32) (f : FineBoard) : Prop where
  board : BoardInv factorial f.board
  status : ∀ stat, f.status = some stat → stat ≠ 0

section
variable {factorial : BitVec 32 → BitVec 32} {f : FineBoard} {b : Board} {stat : BitVec 32}
  {js : List Job}

theorem BoardInv.dev (h : BoardInv factorial b) {e : EduDev}
    (hsame : SameRing b.sys { b.sys with dev := e }) (hslab : e.slab = b.sys.dev.slab) :
    BoardInv factorial { b with sys.dev := e } :=
  h.advance (h.owner.same hsame (h.owner.ring.same hsame fun _ => by rw [hslab])) rfl

theorem postStep_some (h : f.board.handler = some (stat, js)) :
    f.postStep = { f with
      owed := true
      board := { f.board.postStep with sys := f.board.sys.scan f.board.regFact } } := by
  rw [FineBoard.postStep, h]

theorem BoardInv.scan (h : BoardInv factorial b) (hhandler : b.handler = some (stat, js)) :
    BoardInv factorial { b.postStep with sys := b.sys.scan b.regFact } := by
  rw [Board.postStep, hhandler]
  refine ⟨h.owner.scan _, ?_, by rintro _ _ ⟨⟩, h.running, h.fact⟩
  cases hfirst : firstInflight b.sys.dev with
  | none =>
    rw [scan_none hfirst]
    simpa using h.raised
  | some i =>
    rw [scan_some hfirst]
    simpa using h.raised

namespace FineInv

theorem read (h : FineInv factorial f) : FineInv factorial f.readStep := by
  unfold FineBoard.readStep
  split_ifs with hread
  · refine ⟨h.board, ?_⟩
    rintro _ ⟨⟩
    exact hread.2.2.2
  · exact h

theorem ack (h : FineInv factorial f) : FineInv factorial f.ackStep := by
  cases hstatus : f.status with
  | none =>
    rw [FineBoard.ackStep, hstatus]
    exact h
  | some stat =>
    rw [ackStep_some hstatus]
    have hdev := h.board.dev (e := irqAcknowledge f.board.sys.dev stat) {} rfl
    refine ⟨⟨hdev.owner, hdev.raised, ?_, hdev.running, hdev.fact⟩, by rintro _ ⟨⟩⟩
    rintro _ _ ⟨⟩
    exact h.status stat hstatus

theorem post (h : FineInv factorial f) : FineInv factorial f.postStep := by
  cases hhandler : f.board.handler with
  | none =>
    rw [FineBoard.postStep, hhandler]
    exact h
  | some run =>
    rw [postStep_some hhandler]
    exact ⟨h.board.scan hhandler, h.status⟩

theorem complete (h : FineInv factorial f) : FineInv factorial f.completeStep := by
  unfold FineBoard.completeStep
  split_ifs
  · exact ⟨h.board.dev {} rfl, h.status⟩
  · exact h

theorem step (h : FineInv factorial f) (e : FineEvent) : FineInv factorial (fineStep factorial f e) := by
  cases e with
  | driver | kick | finish => exact ⟨h.board.step _, h.status⟩
  | irqRead => exact h.read
  | irqAck => exact h.ack
  | irqPost => exact h.post
  | irqComplete => exact h.complete

theorem reachable (d : EduDev) (fact : BitVec 32) (evs : List FineEvent) :
    FineInv factorial (run (fineStep factorial) (.powered d fact) evs) :=
  run_inv (fun _ e h => h.step e) ⟨.powered d fact, by rintro _ ⟨⟩⟩

end FineInv

/-! ## Beside the two steps -/

/-- Without `last_irq` and `irq_done` the acknowledgement is that of `irqEnter`. -/
theorem aside_ack (factorial : BitVec 32 → BitVec 32) (hreports : f.board.Reports)
    (hidle : f.board.handler = none) (hstat : f.board.irqStat ≠ 0)
    (hstatus : f.status = some f.board.irqStat) :
    Aside (boardStep factorial f.board .irqEnter) f.ackStep.board := by
  have hboard : boardStep factorial f.board .irqEnter =
      { f.board.enterStep with sys := f.board.sys } := rfl
  rw [hboard, Board.enterStep, if_pos ⟨hidle, hstat⟩, ackStep_some hstatus, hreports.all,
    hreports.rest]
  exact ⟨{}, rfl, rfl, rfl, rfl, rfl, rfl, rfl, rfl, rfl⟩

theorem aside_post (factorial : BitVec 32 → BitVec 32) (hstat : stat ≠ 0)
    (hhandler : f.board.handler = some (stat, js)) :
    Aside (boardStep factorial f.board .irqPost) f.postStep.board := by
  have hboard : boardStep factorial f.board .irqPost =
      { f.board.postStep with sys := f.board.driverStep .irqPost } := rfl
  rw [hboard, postStep_some hhandler]
  cases hfirst : firstInflight f.board.sys.dev with
  | none =>
    rw [driverStep_idle hhandler hstat hfirst, scan_none hfirst]
    exact ⟨{}, rfl, rfl, rfl, rfl, rfl, rfl, rfl, rfl, rfl⟩
  | some i =>
    rw [driverStep_posts hhandler hstat hfirst, scan_some hfirst]
    exact ⟨{}, rfl, rfl, rfl, rfl, rfl, rfl, rfl, rfl, rfl⟩

theorem aside_complete (f : FineBoard) : Aside f.board f.completeStep.board := by
  unfold FineBoard.completeStep
  split_ifs <;> exact ⟨{}, rfl, rfl, rfl, rfl, rfl, rfl, rfl, rfl, rfl⟩

end

/-! ## What is due -/

/-- What the event is for a handler of two steps. -/
def FineEvent.coarse : FineEvent → List BoardEvent
  | .driver e => [.driver e]
  | .kick c => [.kick c]
  | .finish j => [.finish j]
  | .irqRead | .irqComplete => []
  | .irqAck => [.irqEnter]
  | .irqPost => [.irqPost]

def FineEvent.Among (allowed : BoardEvent → Prop) (e : FineEvent) : Prop :=
  ∀ e' ∈ e.coarse, allowed e'

/-- What the job waits for until it is posted. -/
def fineErrand (j : Job) : List FineEvent := [.finish j, .irqRead, .irqAck, .irqPost]

/-- What the job under way waits for, and whether the handler owes a `complete_all`. -/
structure Debt where
  todo : List FineEvent
  owed : Bool

namespace Debt

def step (d : Debt) : FineEvent → Debt
  | .irqRead => if d.owed then d else { d with todo := advance d.todo .irqRead }
  | .irqPost => ⟨advance d.todo .irqPost, d.owed || d.todo.head? == some .irqPost⟩
  | .irqComplete => { d with owed := false }
  | e => { d with todo := advance d.todo e }

/-- The handler's run for the job has ended. -/
def Over (d : Debt) : Prop := d.todo = [] ∧ d.owed = false

instance (d : Debt) : Decidable d.Over := inferInstanceAs (Decidable (_ ∧ _))

end Debt

/-- The lists that a job goes through. -/
inductive Remains : List FineEvent → Prop
  | kick (c : Cmd) (j : Job) : Remains (.kick c :: fineErrand j)
  | finish (j : Job) : Remains (fineErrand j)
  | read : Remains [.irqRead, .irqAck, .irqPost]
  | ack : Remains [.irqAck, .irqPost]
  | post : Remains [.irqPost]
  | done : Remains []

/-- What an event that is not of the handler does to such a list. `e'` is the same event for a handler
of two steps. -/
structure Next (todo : List FineEvent) (e : FineEvent) (e' : BoardEvent) : Prop where
  remains : Remains (advance todo e)
  coarse : advance (todo.flatMap FineEvent.coarse) e' = (advance todo e).flatMap FineEvent.coarse
  head : (advance todo e).head? = some .irqAck ↔ todo.head? = some .irqAck

namespace Remains

variable {todo : List FineEvent} (h : Remains todo)
include h

theorem skip {e : FineEvent} {e' : BoardEvent} (he : todo.head? ≠ some e)
    (he' : (todo.flatMap FineEvent.coarse).head? ≠ some e') : Next todo e e' := by
  refine ⟨?_, ?_, ?_⟩
  · rwa [advance_of_ne he]
  · rw [advance_of_ne he, advance_of_ne he']
  · rw [advance_of_ne he]

theorem next_driver (e : Event) : Next todo (.driver e) (.driver e) := by
  refine h.skip ?_ ?_ <;> cases h <;> simp [fineErrand, FineEvent.coarse]

theorem next_kick (c : Cmd) : Next todo (.kick c) (.kick c) := by
  cases h with
  | kick c' j =>
    by_cases hc : c = c'
    · subst hc
      have hfine : advance (.kick c :: fineErrand j) (.kick c) = fineErrand j := if_pos rfl
      refine ⟨?_, ?_, ?_⟩
      · rw [hfine]
        exact .finish j
      · rw [hfine]
        exact if_pos rfl
      · rw [hfine]
        simp [fineErrand]
    · exact skip (.kick c' j) (by simpa using Ne.symm hc) (by simpa [FineEvent.coarse] using Ne.symm hc)
  | finish j => exact skip (.finish j) (by simp [fineErrand]) (by simp [fineErrand, FineEvent.coarse])
  | read => exact skip .read (by simp) (by simp [FineEvent.coarse])
  | ack => exact skip .ack (by simp) (by simp [FineEvent.coarse])
  | post => exact skip .post (by simp) (by simp [FineEvent.coarse])
  | done => exact skip .done (by simp) (by simp)

theorem next_finish (j : Job) : Next todo (.finish j) (.finish j) := by
  cases h with
  | finish j' =>
    by_cases hj : j = j'
    · subst hj
      have hfine : advance (fineErrand j) (.finish j) = [.irqRead, .irqAck, .irqPost] := if_pos rfl
      refine ⟨?_, ?_, ?_⟩
      · rw [hfine]
        exact .read
      · rw [hfine]
        exact if_pos rfl
      · rw [hfine]
        simp [fineErrand]
    · exact skip (.finish j') (by simpa [fineErrand] using Ne.symm hj)
        (by simpa [fineErrand, FineEvent.coarse] using Ne.symm hj)
  | kick c j' => exact skip (.kick c j') (by simp) (by simp [FineEvent.coarse])
  | read => exact skip .read (by simp) (by simp [FineEvent.coarse])
  | ack => exact skip .ack (by simp) (by simp [FineEvent.coarse])
  | post => exact skip .post (by simp) (by simp [FineEvent.coarse])
  | done => exact skip .done (by simp) (by simp)

end Remains

/-! ## The job under way -/

/-- With a handler of two steps `P` tells how far the job has come. -/
structure Tracks (factorial : BitVec 32 → BitVec 32) (allowed : BoardEvent → Prop) (bit : BitVec 32)
    (P : List BoardEvent → Board → Prop) : Prop where
  raises : bit ≠ 0
  step : ∀ {todo b e}, P todo b → allowed e → P (advance todo e) (boardStep factorial b e)
  aside : ∀ {todo b b'}, P todo b → BoardInv factorial b' → Aside b b' → P todo b'
  handler : ∀ {todo b}, P todo b → (b.handler = none ↔ todo ≠ [.irqPost])
  irqStat : ∀ {todo b}, P todo b → b.irqStat = if todo = [.irqEnter, .irqPost] then bit else 0
  reports : ∀ {todo b}, P todo b → b.Reports

/-- The job has come as far as `P` tells, with what the handler has read and owes. -/
structure FineAt (factorial : BitVec 32 → BitVec 32) (bit : BitVec 32)
    (P : List BoardEvent → Board → Prop) (d : Debt) (f : FineBoard) : Prop where
  inv : FineInv factorial f
  here : P (d.todo.flatMap FineEvent.coarse) f.board
  remains : Remains d.todo
  status : f.status = if d.todo.head? = some .irqAck then some bit else none
  owed : f.owed = d.owed

section
variable {factorial : BitVec 32 → BitVec 32} {allowed : BoardEvent → Prop} {bit : BitVec 32}
  {P : List BoardEvent → Board → Prop} {d : Debt} {f : FineBoard}

theorem Tracks.outside (ht : Tracks factorial allowed bit P) (h : FineAt factorial bit P d f)
    {e : FineEvent} {e' : BoardEvent} (he' : allowed e')
    (hfine : fineStep factorial f e = { f with board := boardStep factorial f.board e' })
    (hdue : d.step e = { d with todo := advance d.todo e })
    (hnext : Next d.todo e e') :
    FineAt factorial bit P (d.step e) (fineStep factorial f e) := by
  have hinv := h.inv.step e
  rw [hdue]
  rw [hfine] at hinv ⊢
  refine ⟨hinv, hnext.coarse ▸ ht.step h.here he', hnext.remains, ?_, h.owed⟩
  simp only [hnext.head]
  exact h.status

theorem Tracks.read (ht : Tracks factorial allowed bit P) (h : FineAt factorial bit P d f) :
    FineAt factorial bit P (d.step .irqRead) f.readStep := by
  have hinv := h.inv.read
  have hhandler := ht.handler h.here
  have hstat := ht.irqStat h.here
  have hstatus := h.status
  have howed := h.owed
  have hstay (hidle : f.readStep = f) (hdue : d.step .irqRead = d) :
      FineAt factorial bit P (d.step .irqRead) f.readStep := by
    rw [hidle, hdue]
    exact h
  obtain ⟨todo, owed⟩ := d
  cases owed with
  | true =>
    refine hstay (if_neg ?_) rfl
    rw [howed]
    simp
  | false =>
    cases h.remains with
    | read =>
      have hread : f.readStep = { f with status := some f.board.irqStat } := by
        refine if_pos ⟨hstatus, hhandler.mpr (by simp [FineEvent.coarse]), howed, ?_⟩
        rw [hstat]
        exact ht.raises
      rw [hread] at hinv ⊢
      exact ⟨hinv, h.here, .ack, congrArg some hstat, howed⟩
    | kick | finish | ack | post | done =>
      refine hstay (if_neg ?_) rfl
      simp_all [fineErrand, FineEvent.coarse]

theorem Tracks.ack (ht : Tracks factorial allowed bit P) (henter : allowed .irqEnter)
    (h : FineAt factorial bit P d f) : FineAt factorial bit P (d.step .irqAck) f.ackStep := by
  have hinv := h.inv.ack
  have hidle := ht.handler h.here
  have hstat := ht.irqStat h.here
  have hreports := ht.reports h.here
  obtain ⟨todo, owed⟩ := d
  have hstatus := h.status
  cases h.remains with
  | ack =>
    have hbit : f.board.irqStat = bit := hstat
    have haside := aside_ack factorial hreports
      (hidle.mpr (by simp [FineEvent.coarse])) (hbit ▸ ht.raises) (hbit.symm ▸ hstatus)
    have hhere : P [.irqPost] (boardStep factorial f.board .irqEnter) := ht.step h.here henter
    refine ⟨hinv, ht.aside hhere hinv.board haside, .post, ?_, ?_⟩
    · rw [ackStep_some hstatus]
      rfl
    · rw [ackStep_some hstatus]
      exact h.owed
  | kick | finish | read | post | done =>
    have hnone : f.ackStep = f := by
      rw [FineBoard.ackStep, show f.status = none from hstatus]
    rw [hnone]
    exact h

theorem Tracks.post (ht : Tracks factorial allowed bit P) (hpost : allowed .irqPost)
    (h : FineAt factorial bit P d f) : FineAt factorial bit P (d.step .irqPost) f.postStep := by
  have hinv := h.inv.post
  have hidle := ht.handler h.here
  obtain ⟨todo, owed⟩ := d
  have hstatus := h.status
  cases h.remains with
  | post =>
    obtain ⟨⟨stat, js⟩, hhandler⟩ : ∃ run, f.board.handler = some run := by
      rw [← Option.ne_none_iff_exists']
      exact fun hnone => hidle.mp hnone rfl
    have hstat := h.inv.board.stat stat js hhandler
    have hhere : P [] (boardStep factorial f.board .irqPost) := ht.step h.here hpost
    have haside := aside_post factorial hstat hhandler
    refine ⟨hinv, ht.aside hhere hinv.board haside, .done, ?_, ?_⟩
    · rw [postStep_some hhandler]
      exact hstatus
    · rw [postStep_some hhandler]
      exact (Bool.or_true _).symm
  | kick | finish | read | ack | done =>
    have hnone : f.board.handler = none := hidle.mpr (by simp [fineErrand, FineEvent.coarse])
    have hstay : f.postStep = f := by rw [FineBoard.postStep, hnone]
    have howed := h.owed
    rw [hstay]
    exact ⟨h.inv, h.here, h.remains, h.status, howed.trans (Bool.or_false _).symm⟩

theorem Tracks.complete (ht : Tracks factorial allowed bit P) (h : FineAt factorial bit P d f) :
    FineAt factorial bit P (d.step .irqComplete) f.completeStep := by
  have hinv := h.inv.complete
  refine ⟨hinv, ht.aside h.here hinv.board (aside_complete f), h.remains, ?_, ?_⟩
  · refine Eq.trans ?_ h.status
    unfold FineBoard.completeStep
    split_ifs <;> rfl
  · show f.completeStep.owed = false
    unfold FineBoard.completeStep
    split_ifs with howed
    · rfl
    · exact Bool.eq_false_of_not_eq_true howed

/-- **Each event brings the job on if it waits for it**, as with a handler of two steps. -/
theorem Tracks.event (ht : Tracks factorial allowed bit P) (h : FineAt factorial bit P d f)
    {e : FineEvent} (he : e.Among allowed) :
    FineAt factorial bit P (d.step e) (fineStep factorial f e) := by
  cases e with
  | irqRead => exact ht.read h
  | irqAck => exact ht.ack (he _ (List.mem_singleton.mpr rfl)) h
  | irqPost => exact ht.post (he _ (List.mem_singleton.mpr rfl)) h
  | irqComplete => exact ht.complete h
  | driver e => exact ht.outside h (he _ (List.mem_singleton.mpr rfl)) rfl rfl (h.remains.next_driver e)
  | kick c => exact ht.outside h (he _ (List.mem_singleton.mpr rfl)) rfl rfl (h.remains.next_kick c)
  | finish j => exact ht.outside h (he _ (List.mem_singleton.mpr rfl)) rfl rfl (h.remains.next_finish j)

theorem Tracks.events (ht : Tracks factorial allowed bit P) (h : FineAt factorial bit P d f)
    {es : List FineEvent} (hes : ∀ e ∈ es, e.Among allowed) :
    FineAt factorial bit P (run Debt.step d es) (run (fineStep factorial) f es) := by
  induction es generalizing d f with
  | nil => exact h
  | cons e es ih =>
    rw [List.forall_mem_cons] at hes
    exact ih (ht.event h hes.1) hes.2

end

/-! ### A command of the ring -/

/-- How far the command has come, with the status bit that it has raised. -/
structure Raising (factorial : BitVec 32 → BitVec 32) (c : Cmd) (k : Nat) (todo : List BoardEvent)
    (b : Board) : Prop where
  progress : Progress factorial c k todo b
  irqStat : b.irqStat = if todo = [.irqEnter, .irqPost] then (workOf c.req).irqBit else 0

section
variable {factorial : BitVec 32 → BitVec 32} {b b' : Board} {c : Cmd} {k : Nat}
  {todo : List BoardEvent}

theorem Progress.handler_iff (h : Progress factorial c k todo b) :
    b.handler = none ↔ todo ≠ [.irqPost] := by
  cases h with
  | handled _ _ _ _ hhandler => simp [hhandler]
  | claimed _ _ hhandler | running _ _ hhandler | finished _ _ hhandler => simp [hhandler, errand]
  | posted hstill => simp [hstill.rests.handler]

theorem Progress.finished_eq (h : Progress factorial c k todo b) :
    b.finished = if todo = [.irqEnter, .irqPost] then [jobOf k c] else [] := by
  cases h with
  | claimed _ hdevice | running _ hdevice | finished _ hdevice | handled _ _ _ hdevice =>
    simp [hdevice.finished, errand]
  | posted hstill => simp [hstill.rests.finished]

theorem Raising.irqStat_step (h : Raising factorial c k todo b) {e : BoardEvent}
    (he : e.Background) : (boardStep factorial b e).irqStat =
      if advance todo e = [.irqEnter, .irqPost] then (workOf c.req).irqBit else 0 := by
  have hstat := h.irqStat
  cases e with
  | driver e =>
    have haside : Aside b (boardStep factorial b (.driver e)) := by
      cases e with
      | setEventfd ctx => exact aside_setEventfd factorial b ctx
      | resetStats => exact aside_resetStats factorial b
      | «open» | submit | irq | pollCq | factorial | dmaTest | arm | wake | timeout | dmaWrite =>
        exact absurd he id
    have hhead : todo.head? ≠ some (.driver e) := by cases h.progress <;> simp [errand]
    rw [advance_of_ne hhead, haside.irqStat]
    exact hstat
  | kick c' =>
    have hsame : (b.kickStep c').irqStat = b.irqStat := by
      rcases kickStep_cases b c' with hstay | ⟨-, hbegin⟩
      · rw [hstay]
      · rw [hbegin]
        rfl
    refine hsame.trans (hstat.trans ?_)
    cases h.progress with
    | claimed =>
      simp only [advance]
      split_ifs <;> simp_all [errand]
    | running | finished | handled | posted => simp [advance, errand]
  | finish j =>
    cases h.progress with
    | running _ hdevice =>
      by_cases hj : j = jobOf k c
      · subst hj
        have hmem : jobOf k c ∈ b.running := by simp [hdevice.running]
        have hnext : advance (errand (jobOf k c)) (.finish (jobOf k c)) = [.irqEnter, .irqPost] :=
          if_pos rfl
        have hzero : b.irqStat = 0 := hdevice.stat.mpr rfl
        have hwork : (jobOf k c).work = workOf c.req := rfl
        have hboard : boardStep factorial b (.finish (jobOf k c)) =
            { b.finish factorial (jobOf k c) with sys := b.sys } := by
          simp only [boardStep, Board.deviceStep, if_pos hmem]
          rfl
        rw [hnext, if_pos rfl, hboard]
        show (b.finish factorial (jobOf k c)).irqStat = _
        rw [(finish_ends factorial b (jobOf k c)).irqStat, hzero, hwork]
        exact BitVec.zero_or
      · rw [finish_idle (by simpa [hdevice.running] using hj),
          advance_of_ne (by simpa [errand] using Ne.symm hj)]
        exact hstat
    | claimed _ hdevice | finished _ hdevice | handled _ _ _ hdevice =>
      rw [finish_idle (by simp [hdevice.running]), advance_of_ne (by simp)]
      exact hstat
    | posted hstill =>
      rw [finish_idle (by simp [hstill.rests.running]), advance_of_ne (by simp)]
      exact hstat
  | irqEnter =>
    cases h.progress with
    | finished _ _ hhandler =>
      have hne : b.irqStat ≠ 0 := by
        rw [hstat]
        exact irqBit_ne_zero _
      have hboard : boardStep factorial b .irqEnter = { b.enterStep with sys := b.sys } := rfl
      rw [hboard, Board.enterStep, if_pos ⟨hhandler, hne⟩]
      show b.irqStat &&& ~~~b.irqStat = _
      simp [advance]
    | claimed | running | handled | posted =>
      rw [enter_idle (.inl (by simpa [errand] using hstat)), advance_of_ne (by simp [errand])]
      exact hstat
  | irqPost =>
    have hsame : (boardStep factorial b .irqPost).irqStat = b.irqStat := by
      show b.postStep.irqStat = _
      unfold Board.postStep
      split <;> rfl
    rw [hsame, hstat]
    cases h.progress <;> simp [advance, errand]

theorem tracks_raising (hop : ValidOpcode c.req) :
    Tracks factorial BoardEvent.Background (workOf c.req).irqBit (Raising factorial c k) where
  raises := irqBit_ne_zero _
  step h he := ⟨h.progress.event hop he, h.irqStat_step he⟩
  aside h hinv haside := ⟨haside.progress h.progress hinv, haside.irqStat.trans h.irqStat⟩
  handler h := h.progress.handler_iff
  irqStat h := h.irqStat
  reports h := by
    intro j hj
    rw [h.progress.finished_eq] at hj
    split_ifs at hj with htodo
    · rw [List.mem_singleton.mp hj, Job.ReportedBy, h.irqStat, if_pos htodo]
      show (workOf c.req).irqBit &&& (workOf c.req).irqBit ≠ 0
      rw [BitVec.and_self]
      exact irqBit_ne_zero _
    · exact absurd hj List.not_mem_nil

end

/-! ### A legacy ioctl -/

section
variable {factorial : BitVec 32 → BitVec 32} {b b' : Board} {j : Job} {todo : List BoardEvent}

theorem Aside.stage (h : Aside b b') {kicks : Nat} {running finished : List Job} {stat : BitVec 32}
    {handler : Option (BitVec 32 × List Job)} (hs : b.Stage kicks running finished stat handler) :
    b'.Stage kicks running finished stat handler where
  inflight := by rw [h.ring.inflight]; exact hs.inflight
  unkicked := h.unkicked.trans hs.unkicked
  kicks := h.kicks.trans hs.kicks
  running := h.running.trans hs.running
  finished := h.finished.trans hs.finished
  irqStat := h.irqStat.trans hs.irqStat
  handler := h.handler.trans hs.handler

theorem Aside.serving (h : Aside b b') (hs : Serving factorial j todo b) :
    Serving factorial j todo b' := by
  have hfact {w : Work} (hw : b.Computed factorial w) : b'.Computed factorial w :=
    fun n hn => h.regFact.trans (hw n hn)
  cases hs with
  | running hstage => exact .running (h.stage hstage)
  | finished hstage hcomputed => exact .finished (h.stage hstage) (hfact hcomputed)
  | handled js hstage hcomputed => exact .handled js (h.stage hstage) (hfact hcomputed)
  | ended hcalm hcomputed => exact .ended (h.stage hcalm) (hfact hcomputed)

theorem tracks_serving (j : Job) :
    Tracks factorial BoardEvent.Ambient j.work.irqBit (Serving factorial j) where
  raises := irqBit_ne_zero _
  step h he := (h.event he).1
  aside h _ haside := haside.serving h
  handler h := by
    cases h with
    | running hstage | finished hstage | ended hstage => simp [hstage.handler, errand]
    | handled _ hstage => simp [hstage.handler]
  irqStat h := by
    cases h with
    | running hstage | handled _ hstage | ended hstage => simp [hstage.irqStat, errand]
    | finished hstage => simp [hstage.irqStat]
  reports h := by
    intro i hi
    cases h with
    | running hstage | handled _ hstage | ended hstage => simp [hstage.finished] at hi
    | finished hstage =>
      rw [hstage.finished, List.mem_singleton] at hi
      subst hi
      rw [Job.ReportedBy, hstage.irqStat, BitVec.and_self]
      exact irqBit_ne_zero _

end

/-! ### Nothing under way -/

structure Rested (factorial : BitVec 32 → BitVec 32) (kicks calls : Nat) (todo : List BoardEvent)
    (b : Board) : Prop where
  todo : todo = []
  ready : b.Ready factorial kicks calls

section
variable {factorial : BitVec 32 → BitVec 32} {b : Board}

theorem Board.Ready.ambient {kicks calls : Nat} (h : b.Ready factorial kicks calls) {e : BoardEvent}
    (he : e.Ambient) : (boardStep factorial b e).Ready factorial kicks calls := by
  cases e with
  | driver e =>
    cases e with
    | dmaWrite bs =>
      exact ⟨⟨h.inv.step _, ⟨h.rests.inflight, h.rests.running, h.rests.finished, h.rests.irqStat,
        h.rests.handler⟩, h.unkicked, h.level, h.kicks, h.calls⟩, h.queue⟩
    | _ => exact h.event he
  | _ => exact h.event he

theorem tracks_rested (kicks calls : Nat) :
    Tracks factorial BoardEvent.Ambient 1 (Rested factorial kicks calls) where
  raises := by decide
  step h he := ⟨by rw [h.todo]; rfl, h.ready.ambient he⟩
  aside h hinv haside :=
    ⟨h.todo, haside.still h.ready.toStill hinv, haside.ring.queue.trans h.ready.queue⟩
  handler h := by simp [h.todo, h.ready.rests.handler]
  irqStat h := by simp [h.todo, h.ready.rests.irqStat]
  reports h := by
    intro j hj
    rw [h.ready.rests.finished] at hj
    exact absurd hj List.not_mem_nil

end

end PcieDriver.Edu
