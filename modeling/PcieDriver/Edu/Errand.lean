import PcieDriver.Edu.Attribution
import PcieDriver.Edu.Queue
import PcieDriver.Edu.Userspace

/-!
# What becomes of one command

A command is kicked, the device finishes it, the handler acknowledges it, and then the handler posts
its completion. While it is the only one in flight nothing else can happen to it, and these four come
in this order.
-/

open Base

namespace PcieDriver.Edu

/-- Nobody calls the driver, but for a reset of the statistics or a new eventfd. -/
def BoardEvent.Background : BoardEvent → Prop
  | .driver (.setEventfd _) | .driver .resetStats => True
  | .driver _ => False
  | .kick _ | .finish _ | .irqEnter | .irqPost => True

def jobOf (kicks : Nat) (c : Cmd) : Job := ⟨kicks, .ring c, workOf c.req⟩

/-- What a kicked command waits for. -/
def errand (j : Job) : List BoardEvent := [.finish j, .irqEnter, .irqPost]

/-- The completion that the caller ought to get. -/
def answer (factorial : BitVec 32 → BitVec 32) (req : EduSubmitReq) : EduCompletionReq :=
  ⟨req.tag, 0, expected factorial req⟩

/-! ## States -/

/-- Nothing is under way, after so many kicks and calls. -/
structure Board.Still (factorial : BitVec 32 → BitVec 32) (kicks calls : Nat) (b : Board) : Prop where
  inv : BoardInv factorial b
  rests : b.Rests
  unkicked : b.unkicked = []
  level : b.sys.claimed.length = b.sys.posted.length
  kicks : b.kicks = kicks
  calls : b.sys.calls = calls

/-- Nothing is under way, and all that was posted is read. -/
structure Board.Ready (factorial : BitVec 32 → BitVec 32) (kicks calls : Nat) (b : Board) : Prop
    extends b.Still factorial kicks calls where
  queue : b.sys.queue = []

/-- The driver's part while `c` is the only command in flight. -/
structure Board.Flies (factorial : BitVec 32 → BitVec 32) (c : Cmd) (b : Board) : Prop where
  inv : BoardInv factorial b
  slot : ∃ i, b.sys.Holds i c ∧ ∀ k, b.sys.dev.inflight k ≠ 0 → k = i
  intact : Intact b.sys
  level : b.sys.claimed.length = b.sys.posted.length + 1
  calls : b.sys.calls = c.id + 1
  queue : b.sys.queue = []

/-- The device's part, as far as it matters for one command. -/
structure Board.DeviceAt (b : Board) (kicks : Nat) (unkicked : List Cmd)
    (running finished : List Job) : Prop where
  kicks : b.kicks = kicks
  stat : b.irqStat = 0 ↔ finished = []
  unkicked : b.unkicked = unkicked
  running : b.running = running
  finished : b.finished = finished

/-- `REG_FACT` holds the result of `c`, if it has one. -/
def Board.Answers (factorial : BitVec 32 → BitVec 32) (c : Cmd) (b : Board) : Prop :=
  c.req.opcode = eduOpFactorial → b.regFact = factorial c.req.operand

/-- How far command `c`, which is kick number `k`, has come, by what it still waits for. -/
inductive Progress (factorial : BitVec 32 → BitVec 32) (c : Cmd) (k : Nat) :
    List BoardEvent → Board → Prop
  | claimed {b : Board} (hflies : b.Flies factorial c) (hdevice : b.DeviceAt k [c] [] [])
      (hhandler : b.handler = none) :
      Progress factorial c k (.kick c :: errand (jobOf k c)) b
  | running {b : Board} (hflies : b.Flies factorial c) (hdevice : b.DeviceAt (k + 1) [] [jobOf k c] [])
      (hhandler : b.handler = none) : Progress factorial c k (errand (jobOf k c)) b
  | finished {b : Board} (hflies : b.Flies factorial c) (hdevice : b.DeviceAt (k + 1) [] [] [jobOf k c])
      (hhandler : b.handler = none) (hanswers : b.Answers factorial c) :
      Progress factorial c k [.irqEnter, .irqPost] b
  | handled {b : Board} (stat : BitVec 32) (js : List Job) (hflies : b.Flies factorial c)
      (hdevice : b.DeviceAt (k + 1) [] [] []) (hhandler : b.handler = some (stat, js))
      (hanswers : b.Answers factorial c) : Progress factorial c k [.irqPost] b
  | posted {b : Board} (hstill : b.Still factorial (k + 1) (c.id + 1)) (entry : CqEntry)
      (hqueue : b.sys.queue = [entry]) (hreport : entry.report = answer factorial c.req) :
      Progress factorial c k [] b

section
variable {factorial : BitVec 32 → BitVec 32} {b : Board}

/-! ## Steps -/

variable {c : Cmd} {k : Nat} {todo : List BoardEvent}

/-- Neither the rings nor the device are touched. -/
structure Aside (b b' : Board) : Prop where
  ring : SameRing b.sys b'.sys
  calls : b'.sys.calls = b.sys.calls
  slab : b'.sys.dev.slab = b.sys.dev.slab
  unkicked : b'.unkicked = b.unkicked
  running : b'.running = b.running
  finished : b'.finished = b.finished
  kicks : b'.kicks = b.kicks
  irqStat : b'.irqStat = b.irqStat
  regFact : b'.regFact = b.regFact
  handler : b'.handler = b.handler

theorem aside_setEventfd (factorial : BitVec 32 → BitVec 32) (b : Board) (ctx : Nat) :
    Aside b (boardStep factorial b (.driver (.setEventfd ctx))) :=
  ⟨{}, rfl, rfl, rfl, rfl, rfl, rfl, rfl, rfl, rfl⟩

theorem aside_resetStats (factorial : BitVec 32 → BitVec 32) (b : Board) :
    Aside b (boardStep factorial b (.driver .resetStats)) :=
  ⟨{}, rfl, rfl, rfl, rfl, rfl, rfl, rfl, rfl, rfl⟩

namespace Aside

variable {b' : Board} (h : Aside b b')
include h

theorem flies (hf : b.Flies factorial c) (hinv : BoardInv factorial b') : b'.Flies factorial c where
  inv := hinv
  slot := by
    obtain ⟨i, ⟨hi, hc⟩, honly⟩ := hf.slot
    refine ⟨i, ⟨?_, ?_⟩, ?_⟩
    · rwa [h.ring.inflight]
    · rwa [h.ring.claimed, h.ring.owner]
    · rwa [h.ring.inflight]
  intact := intact_same hf.intact h.ring fun i _ => by rw [h.slab]; exact ⟨rfl, rfl, rfl⟩
  level := by rw [h.ring.claimed, h.ring.posted]; exact hf.level
  calls := h.calls.trans hf.calls
  queue := h.ring.queue.trans hf.queue

theorem deviceAt {kicks : Nat} {unkicked : List Cmd} {running finished : List Job}
    (hd : b.DeviceAt kicks unkicked running finished) :
    b'.DeviceAt kicks unkicked running finished where
  kicks := h.kicks.trans hd.kicks
  stat := by rw [h.irqStat]; exact hd.stat
  unkicked := h.unkicked.trans hd.unkicked
  running := h.running.trans hd.running
  finished := h.finished.trans hd.finished

theorem answers (ha : b.Answers factorial c) : b'.Answers factorial c :=
  fun hop => h.regFact.trans (ha hop)

theorem rests (hr : b.Rests) : b'.Rests where
  inflight := by rw [h.ring.inflight]; exact hr.inflight
  running := h.running.trans hr.running
  finished := h.finished.trans hr.finished
  irqStat := h.irqStat.trans hr.irqStat
  handler := h.handler.trans hr.handler

theorem still {kicks calls : Nat} (hs : b.Still factorial kicks calls) (hinv : BoardInv factorial b') :
    b'.Still factorial kicks calls where
  inv := hinv
  rests := h.rests hs.rests
  unkicked := h.unkicked.trans hs.unkicked
  level := by rw [h.ring.claimed, h.ring.posted]; exact hs.level
  kicks := h.kicks.trans hs.kicks
  calls := h.calls.trans hs.calls

theorem progress (hs : Progress factorial c k todo b) (hinv : BoardInv factorial b') :
    Progress factorial c k todo b' := by
  cases hs with
  | claimed hflies hdevice hhandler =>
    exact .claimed (h.flies hflies hinv) (h.deviceAt hdevice) (h.handler.trans hhandler)
  | running hflies hdevice hhandler =>
    exact .running (h.flies hflies hinv) (h.deviceAt hdevice) (h.handler.trans hhandler)
  | finished hflies hdevice hhandler hanswers =>
    exact .finished (h.flies hflies hinv) (h.deviceAt hdevice) (h.handler.trans hhandler)
      (h.answers hanswers)
  | handled stat js hflies hdevice hhandler hanswers =>
    exact .handled stat js (h.flies hflies hinv) (h.deviceAt hdevice)
      (h.handler.trans hhandler) (h.answers hanswers)
  | posted hstill entry hqueue hreport =>
    exact .posted (h.still hstill hinv) entry (h.ring.queue.trans hqueue) hreport

end Aside

/-! ### The four steps -/

theorem Board.Flies.move (h : b.Flies factorial c) {b' : Board} (hinv : BoardInv factorial b')
    (hsys : b'.sys = b.sys) : b'.Flies factorial c :=
  ⟨hinv, hsys ▸ h.slot, hsys ▸ h.intact, hsys ▸ h.level, hsys ▸ h.calls, hsys ▸ h.queue⟩

theorem progress_kick (hop : ValidOpcode c.req) (hflies : b.Flies factorial c)
    (hdevice : b.DeviceAt k [c] [] []) (hhandler : b.handler = none) :
    Progress factorial c k (errand (jobOf k c)) (boardStep factorial b (.kick c)) := by
  have hinv := hflies.inv.step (.kick c)
  obtain ⟨ws, hws⟩ := kickWrites_valid (e := b.sys.dev) hop
  have hmem : c ∈ b.unkicked := by rw [hdevice.unkicked]; exact List.mem_singleton.mpr rfl
  have hboard : boardStep factorial b (.kick c) = { b.kickStep c with sys := b.sys } := rfl
  rw [hboard, kickStep_begins b hmem hws] at hinv ⊢
  refine .running (hflies.move hinv rfl) ⟨?_, hdevice.stat, ?_, ?_, hdevice.finished⟩ hhandler
  · simp [Board.begin, hdevice.kicks]
  · simp [Board.begin, hdevice.unkicked]
  · simp [Board.begin, hdevice.running, jobOf, hdevice.kicks]

theorem progress_finish (hflies : b.Flies factorial c) (hdevice : b.DeviceAt (k + 1) [] [jobOf k c] [])
    (hhandler : b.handler = none) : Progress factorial c k [.irqEnter, .irqPost]
      (boardStep factorial b (.finish (jobOf k c))) := by
  have hinv := hflies.inv.step (.finish (jobOf k c))
  have hmem : jobOf k c ∈ b.running := by rw [hdevice.running]; exact List.mem_singleton.mpr rfl
  have hboard : boardStep factorial b (.finish (jobOf k c)) =
      { b.finish factorial (jobOf k c) with sys := b.sys } := by
    simp only [boardStep, Board.deviceStep, if_pos hmem]
    rfl
  have hstat : b.irqStat ||| (jobOf k c).work.irqBit ≠ 0 := by
    rw [hdevice.stat.mpr rfl]
    simpa using irqBit_ne_zero (jobOf k c).work
  rw [hboard] at hinv ⊢
  have hflies' := hflies.move hinv rfl
  by_cases hop : c.req.opcode = eduOpFactorial
  · have hwork : (jobOf k c).work = .factorial c.req.operand := if_pos hop
    simp only [Board.finish, hwork] at hflies' hstat ⊢
    refine .finished hflies' ⟨hdevice.kicks, iff_of_false hstat (List.cons_ne_nil _ _),
      hdevice.unkicked, ?_, ?_⟩ hhandler fun _ => rfl
    · simp [hdevice.running]
    · simp [hdevice.finished]
  · have hwork : (jobOf k c).work = .dma := if_neg hop
    simp only [Board.finish, hwork] at hflies' hstat ⊢
    refine .finished hflies' ⟨hdevice.kicks, iff_of_false hstat (List.cons_ne_nil _ _),
      hdevice.unkicked, ?_, ?_⟩ hhandler
      fun h => absurd h hop
    · simp [hdevice.running]
    · simp [hdevice.finished]

theorem progress_enter (hflies : b.Flies factorial c) (hdevice : b.DeviceAt (k + 1) [] [] [jobOf k c])
    (hhandler : b.handler = none) (hanswers : b.Answers factorial c) :
    Progress factorial c k [.irqPost] (boardStep factorial b .irqEnter) := by
  have hinv := hflies.inv.step .irqEnter
  have hstat : b.irqStat ≠ 0 := fun hzero => by cases hdevice.stat.mp hzero
  have hboard : boardStep factorial b .irqEnter = { b.enterStep with sys := b.sys } := rfl
  rw [hboard, Board.enterStep, if_pos ⟨hhandler, hstat⟩] at hinv ⊢
  refine .handled b.irqStat b.finished (hflies.move hinv rfl)
    ⟨hdevice.kicks, ?_, hdevice.unkicked, hdevice.running, rfl⟩ rfl hanswers
  exact iff_of_true (show b.irqStat &&& ~~~b.irqStat = 0 by simp) rfl

theorem report_answer {i : Fin ringSize} (hcarries : (sqAt b.sys.dev.slab i).Carries c.req)
    (hanswers : b.Answers factorial c) :
    (completionOf b.sys.dev i b.regFact).report = answer factorial c.req := by
  simp only [CqEntry.report, completionOf, answer, expected, hcarries.1, hcarries.2.1]
  split_ifs with hop
  · rw [hanswers hop]
  · rfl

theorem progress_post {stat : BitVec 32} {js : List Job} (hflies : b.Flies factorial c)
    (hdevice : b.DeviceAt (k + 1) [] [] []) (hhandler : b.handler = some (stat, js))
    (hanswers : b.Answers factorial c) :
    Progress factorial c k [] (boardStep factorial b .irqPost) := by
  have hinv := hflies.inv.step .irqPost
  obtain ⟨i, hi, honly⟩ := hflies.slot
  have hfirst : firstInflight b.sys.dev = some i :=
    firstInflight_some.mpr ⟨hi.1, fun n hn => by
      by_contra hbusy
      exact hn.ne (honly n hbusy)⟩
  have hsys : (boardStep factorial b .irqPost).sys = b.sys.post i stat b.regFact :=
    driverStep_posts hhandler (hflies.inv.stat stat js hhandler) hfirst
  have hdev : (boardStep factorial b .irqPost).unkicked = b.unkicked ∧
      (boardStep factorial b .irqPost).running = b.running ∧
      (boardStep factorial b .irqPost).finished = b.finished ∧
      (boardStep factorial b .irqPost).irqStat = b.irqStat ∧
      (boardStep factorial b .irqPost).handler = none ∧
      (boardStep factorial b .irqPost).kicks = b.kicks := by
    simp [boardStep, Board.deviceStep, Board.postStep, hhandler]
  obtain ⟨hunkicked, hrunning, hfinished, hstat, hnone, hkicks⟩ := hdev
  obtain ⟨c', hc', hcarries⟩ := hflies.intact i hi.1
  obtain rfl : c = c' := Option.some.inj (hi.2.symm.trans hc')
  refine .posted ⟨hinv, ?_, hunkicked.trans hdevice.unkicked, ?_, hkicks.trans hdevice.kicks, ?_⟩
    (completionOf b.sys.dev i b.regFact) ?_ (report_answer hcarries hanswers)
  · refine ⟨?_, hrunning.trans hdevice.running, hfinished.trans hdevice.finished,
      hstat.trans (hdevice.stat.mpr rfl), hnone⟩
    rw [hsys, inUse_eq_empty]
    intro n
    by_contra hn
    -- The slot that was retired was the only one.
    obtain ⟨hne, hn⟩ := OwnerInv.post_other hn
    exact hne (honly n hn)
  · rw [hsys]
    simp only [Sys.post, List.length_append, List.length_singleton]
    exact hflies.level
  · rw [hsys]
    exact hflies.calls
  · rw [hsys, hflies.inv.owner.ring.queue_post, hflies.queue]
    rfl

/-! ### Every step -/

theorem Progress.stay (h : Progress factorial c k todo b) {e : BoardEvent}
    (hboard : boardStep factorial b e = b) (hhead : todo.head? ≠ some e) :
    Progress factorial c k (advance todo e) (boardStep factorial b e) := by
  rw [hboard, advance_of_ne hhead]
  exact h

theorem Progress.inv (h : Progress factorial c k todo b) : BoardInv factorial b := by
  cases h with
  | claimed hflies | running hflies | finished hflies | handled _ _ hflies => exact hflies.inv
  | posted hstill => exact hstill.inv

theorem Progress.aside (h : Progress factorial c k todo b) {e : Event}
    (haside : Aside b (boardStep factorial b (.driver e))) :
    Progress factorial c k (advance todo (.driver e)) (boardStep factorial b (.driver e)) := by
  have hhead : todo.head? ≠ some (.driver e) := by cases h <;> nofun
  rw [advance_of_ne hhead]
  exact haside.progress h (h.inv.step _)

theorem Progress.kick (hop : ValidOpcode c.req) (h : Progress factorial c k todo b) (c' : Cmd) :
    Progress factorial c k (advance todo (.kick c')) (boardStep factorial b (.kick c')) := by
  have hprogress := h
  cases h with
  | claimed hflies hdevice hhandler =>
    by_cases hc : c' = c
    · subst hc
      rw [advance, if_pos rfl]
      exact progress_kick hop hflies hdevice hhandler
    · refine hprogress.stay (kick_idle ?_) ?_
      · simpa [hdevice.unkicked] using hc
      · simpa using Ne.symm hc
  | running _ hdevice | finished _ hdevice | handled _ _ _ hdevice =>
    exact hprogress.stay (kick_idle (by simp [hdevice.unkicked])) (by simp [errand])
  | posted hstill => exact hprogress.stay (kick_idle (by simp [hstill.unkicked])) (by simp)

theorem Progress.finish (h : Progress factorial c k todo b) (j : Job) :
    Progress factorial c k (advance todo (.finish j)) (boardStep factorial b (.finish j)) := by
  have hprogress := h
  cases h with
  | running hflies hdevice hhandler =>
    by_cases hj : j = jobOf k c
    · subst hj
      rw [errand, advance, if_pos rfl]
      exact progress_finish hflies hdevice hhandler
    · refine hprogress.stay (finish_idle ?_) ?_
      · simpa [hdevice.running] using hj
      · simpa [errand] using Ne.symm hj
  | claimed _ hdevice | finished _ hdevice | handled _ _ _ hdevice =>
    exact hprogress.stay (finish_idle (by simp [hdevice.running])) (by simp)
  | posted hstill => exact hprogress.stay (finish_idle (by simp [hstill.rests.running])) (by simp)

theorem Progress.irqEnter (h : Progress factorial c k todo b) :
    Progress factorial c k (advance todo .irqEnter) (boardStep factorial b .irqEnter) := by
  have hprogress := h
  cases h with
  | finished hflies hdevice hhandler hanswers =>
    rw [advance, if_pos rfl]
    exact progress_enter hflies hdevice hhandler hanswers
  | claimed _ hdevice | running _ hdevice | handled _ _ _ hdevice =>
    exact hprogress.stay (enter_idle (.inl (hdevice.stat.mpr rfl))) (by simp [errand])
  | posted hstill => exact hprogress.stay (enter_idle (.inl hstill.rests.irqStat)) (by simp)

theorem Progress.irqPost (h : Progress factorial c k todo b) :
    Progress factorial c k (advance todo .irqPost) (boardStep factorial b .irqPost) := by
  have hprogress := h
  cases h with
  | handled stat js hflies hdevice hhandler hanswers =>
    rw [advance, if_pos rfl]
    exact progress_post hflies hdevice hhandler hanswers
  | claimed _ _ hhandler | running _ _ hhandler | finished _ _ hhandler =>
    exact hprogress.stay (post_idle hhandler) (by simp [errand])
  | posted hstill => exact hprogress.stay (post_idle hstill.rests.handler) (by simp)

/-- **Each event brings the command on if it waits for it, and else leaves it where it is.** -/
theorem Progress.event (hop : ValidOpcode c.req) (h : Progress factorial c k todo b) {e : BoardEvent}
    (he : e.Background) : Progress factorial c k (advance todo e) (boardStep factorial b e) := by
  cases e with
  | driver e =>
    cases e with
    | setEventfd ctx => exact h.aside (aside_setEventfd factorial b ctx)
    | resetStats => exact h.aside (aside_resetStats factorial b)
    | «open» | submit | irq | pollCq | factorial | dmaTest | arm | wake | timeout | dmaWrite =>
      exact absurd he id
  | kick c' => exact h.kick hop c'
  | finish j => exact h.finish j
  | irqEnter => exact h.irqEnter
  | irqPost => exact h.irqPost

/-- A device that rests has nothing to do. -/
theorem Board.Ready.event {kicks calls : Nat} (h : b.Ready factorial kicks calls) {e : BoardEvent}
    (he : e.Background) : (boardStep factorial b e).Ready factorial kicks calls := by
  have hinv := h.inv.step e
  cases e with
  | driver e =>
    cases e with
    | setEventfd ctx =>
      have haside := aside_setEventfd factorial b ctx
      exact ⟨haside.still h.toStill hinv, haside.ring.queue.trans h.queue⟩
    | resetStats =>
      have haside := aside_resetStats factorial b
      exact ⟨haside.still h.toStill hinv, haside.ring.queue.trans h.queue⟩
    | «open» | submit | irq | pollCq | factorial | dmaTest | arm | wake | timeout | dmaWrite =>
      exact absurd he id
  | kick c' => rw [kick_idle (by simp [h.unkicked])]; exact h
  | finish j => rw [finish_idle (by simp [h.rests.running])]; exact h
  | irqEnter => rw [enter_idle (.inl h.rests.irqStat)]; exact h
  | irqPost => rw [post_idle h.rests.handler]; exact h

theorem Board.Ready.events {kicks calls : Nat} (h : b.Ready factorial kicks calls) {es : List BoardEvent}
    (hes : ∀ e ∈ es, e.Background) :
    (run (boardStep factorial) b es).Ready factorial kicks calls :=
  (Always.of_step (P := fun _ e => e.Background) (fun _ _ h he => h.event he) h
    (along_of_forall fun _ => hes)).last

theorem Progress.events (hop : ValidOpcode c.req) (h : Progress factorial c k todo b) {es : List BoardEvent}
    (hes : ∀ e ∈ es, e.Background) :
    Progress factorial c k (run advance todo es) (run (boardStep factorial) b es) := by
  induction es generalizing b todo with
  | nil => exact h
  | cons e es ih =>
    exact ih (h.event hop (hes e List.mem_cons_self)) fun e' he' => hes e' (List.mem_cons_of_mem _ he')

end

end PcieDriver.Edu
