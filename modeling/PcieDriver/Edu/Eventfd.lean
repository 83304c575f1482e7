import PcieDriver.Base.Machine
import PcieDriver.Base.Pool
import PcieDriver.Edu.Driver

/-!
# The references to an eventfd

`EDU_IOC_SET_EVENTFD` takes no lock: it puts the old context and then stores the new one, and the
handler reads `evt_ctx` without a lock too. Here each of these is a step of its own.
-/

open Base

namespace PcieDriver.Edu.Eventfd

/-! ## States -/

/-- Where a call of `EDU_IOC_SET_EVENTFD` is. -/
inductive CallPc
  /-- `eventfd_ctx_fdget` has returned `ctx`. -/
  | got (ctx : Nat)
  /-- It has found `old` in `evt_ctx`. -/
  | tested (ctx old : Nat)
  /-- It is about to store `ctx`, and `put` tells whether it has put an old context. -/
  | ready (ctx : Nat) (put : Bool)
  | done
  deriving DecidableEq

inductive HandlerPc
  | idle
  | loaded (ctx : Nat)
  deriving DecidableEq

/-- Where `edu_remove` is. -/
inductive RemovePc
  | waiting
  | irqFreed
  | tested (ctx : Nat)
  | ended
  deriving DecidableEq

structure Sys where
  evtCtx : Option Nat
  /-- Every call so far, in the order in which they got their contexts. -/
  calls : List CallPc
  handler : HandlerPc
  remove : RemovePc
  /-- The contexts that `eventfd_ctx_fdget` returned, each as often as it did. -/
  acquired : List Nat
  /-- The contexts that were given to `eventfd_ctx_put`. -/
  put : List Nat

/-- Right after `edu_probe`. -/
def probed : Sys := ⟨none, [], .idle, .waiting, [], []⟩

/-! ## Steps -/

/-- `reread` tells whether the code reads `evt_ctx` again when it uses the context that it found
there, or keeps the first value. -/
inductive Event
  | acquire (ctx : Nat)
  | test (i : Nat)
  | put (i : Nat) (reread : Bool)
  | store (i : Nat)
  | load
  | signal (reread : Bool)
  | freeIrq
  | removeTest
  | removePut (reread : Bool)

def Sys.target (s : Sys) (reread : Bool) (found : Nat) : Option Nat :=
  if reread then s.evtCtx else some found

/-- Call `i` goes on to `pc`. -/
def Sys.goto (s : Sys) (i : Nat) (pc : CallPc) : Sys := { s with calls := s.calls.set i pc }

def Sys.give (s : Sys) (ctx : Option Nat) : Sys := { s with put := ctx.toList ++ s.put }

/-- After its end `edu_remove` leaves nothing to work on. It frees the interrupt when no handler is
at work. -/
def step (s : Sys) (e : Event) : Sys :=
  if s.remove = .ended then s
  else match e with
  | .acquire ctx => { s with calls := s.calls ++ [.got ctx], acquired := ctx :: s.acquired }
  | .test i =>
    match s.calls[i]?, s.evtCtx with
    | some (.got ctx), some old => s.goto i (.tested ctx old)
    | some (.got ctx), none => s.goto i (.ready ctx false)
    | _, _ => s
  | .put i reread =>
    match s.calls[i]? with
    | some (.tested ctx old) => (s.goto i (.ready ctx true)).give (s.target reread old)
    | _ => s
  | .store i =>
    match s.calls[i]? with
    | some (.ready ctx _) => { s.goto i .done with evtCtx := some ctx }
    | _ => s
  | .load =>
    match s.remove, s.handler, s.evtCtx with
    | .waiting, .idle, some ctx => { s with handler := .loaded ctx }
    | _, _, _ => s
  | .signal _ =>
    match s.handler with
    | .loaded _ => { s with handler := .idle }
    | .idle => s
  | .freeIrq =>
    match s.remove, s.handler with
    | .waiting, .idle => { s with remove := .irqFreed }
    | _, _ => s
  | .removeTest =>
    match s.remove, s.evtCtx with
    | .irqFreed, some ctx => { s with remove := .tested ctx }
    | .irqFreed, none => { s with remove := .ended }
    | _, _ => s
  | .removePut reread =>
    match s.remove with
    | .tested ctx => { s.give (s.target reread ctx) with remove := .ended }
    | _ => s

theorem step_ended {s : Sys} (h : s.remove = .ended) (e : Event) : step s e = s := if_pos h

/-- Everything that a step can do before the end of `edu_remove`. -/
inductive Effect (s : Sys) : Event → Sys → Prop
  | skip (e) : Effect s e s
  | acquire (ctx) :
      Effect s (.acquire ctx) { s with calls := s.calls ++ [.got ctx], acquired := ctx :: s.acquired }
  | found (i ctx old) (hgot : s.calls[i]? = some (.got ctx)) :
      Effect s (.test i) (s.goto i (.tested ctx old))
  | null (i ctx) (hgot : s.calls[i]? = some (.got ctx)) :
      Effect s (.test i) (s.goto i (.ready ctx false))
  | put (i reread ctx old) (htested : s.calls[i]? = some (.tested ctx old)) :
      Effect s (.put i reread) ((s.goto i (.ready ctx true)).give (s.target reread old))
  | store (i ctx put) (hready : s.calls[i]? = some (.ready ctx put)) :
      Effect s (.store i) { s.goto i .done with evtCtx := some ctx }
  | load (ctx) (hwaiting : s.remove = .waiting) : Effect s .load { s with handler := .loaded ctx }
  | signal (reread) : Effect s (.signal reread) { s with handler := .idle }
  | freeIrq (hidle : s.handler = .idle) : Effect s .freeIrq { s with remove := .irqFreed }
  | removeTest (ctx) (hfreed : s.remove = .irqFreed) :
      Effect s .removeTest { s with remove := .tested ctx }
  | removeNull (hfreed : s.remove = .irqFreed) (hnull : s.evtCtx = none) :
      Effect s .removeTest { s with remove := .ended }
  | removePut (reread found) (htested : s.remove = .tested found) :
      Effect s (.removePut reread) { s.give (s.target reread found) with remove := .ended }

theorem step_effect {s : Sys} (h : s.remove ≠ .ended) (e : Event) : Effect s e (step s e) := by
  unfold step
  rw [if_neg h]
  cases e with
  | acquire ctx => exact .acquire ctx
  | test i =>
    dsimp only
    split
    · next ctx old hgot _ => exact .found i ctx old hgot
    · next ctx hgot _ => exact .null i ctx hgot
    · exact .skip _
  | put i reread =>
    dsimp only
    split
    · next ctx old htested => exact .put i reread ctx old htested
    · exact .skip _
  | store i =>
    dsimp only
    split
    · next ctx put hready => exact .store i ctx put hready
    · exact .skip _
  | load =>
    dsimp only
    split
    · next ctx hwaiting _ _ => exact .load ctx hwaiting
    · exact .skip _
  | signal reread =>
    dsimp only
    split
    · exact .signal reread
    · exact .skip _
  | freeIrq =>
    dsimp only
    split
    · next hidle => exact .freeIrq hidle
    · exact .skip _
  | removeTest =>
    dsimp only
    split
    · next ctx hfreed _ => exact .removeTest ctx hfreed
    · next hfreed hnull => exact .removeNull hfreed hnull
    · exact .skip _
  | removePut reread =>
    dsimp only
    split
    · next found htested => exact .removePut reread found htested
    · exact .skip _

/-- **Without interruption a call does what the ioctl does**, and puts what was there before. -/
theorem call_alone (s : Sys) (e : EduDev) (ctx : Nat) (reread : Bool) (hremove : s.remove ≠ .ended) :
    let i := s.calls.length
    let s' := run step s [.acquire ctx, .test i, .put i reread, .store i]
    s'.evtCtx = (eduIocSetEventfd e ctx).evtCtx ∧ s'.put = s.evtCtx.toList ++ s.put ∧
      s'.acquired = ctx :: s.acquired := by
  obtain ⟨evtCtx, calls, handler, remove, acquired, put⟩ := s
  cases evtCtx with
  | none => simp [step, hremove, Sys.goto, eduIocSetEventfd]
  | some old => cases reread <;> simp [step, hremove, Sys.goto, Sys.give, Sys.target, eduIocSetEventfd]

/-! ## The property and the condition -/

/-- A reference to `ctx` is not put yet. -/
def Sys.Held (s : Sys) (ctx : Nat) : Prop := s.put.count ctx < s.acquired.count ctx

/-- The handler signals a context that the driver holds. -/
def SignalsHeld (s : Sys) : Event → Prop
  | .signal reread => ∀ found, s.handler = .loaded found →
      ∃ ctx, s.target reread found = some ctx ∧ s.Held ctx
  | _ => True

/-- No context is put too often, and at the end of `edu_remove` each is put as often as it was
acquired. -/
structure Accounted (s : Sys) : Prop where
  put : ∀ ctx, s.put.count ctx ≤ s.acquired.count ctx
  ended : s.remove = .ended → ∀ ctx, s.put.count ctx = s.acquired.count ctx

def CallPc.isPut : CallPc → Bool
  | .ready _ put => put
  | _ => false

/-- No call is between its put and its store. -/
def Sys.Closed (s : Sys) : Prop := ∀ c ∈ s.calls, c.isPut = false

instance (s : Sys) : Decidable s.Closed :=
  inferInstanceAs (Decidable (∀ c ∈ s.calls, c.isPut = false))

/-- What is about to be used is in `evt_ctx`, and is not put. -/
def Sys.Current (s : Sys) (ctx : Option Nat) : Prop := ctx ≠ none ∧ s.evtCtx = ctx ∧ s.Closed

def Sys.Finished (s : Sys) : Prop := ∀ c ∈ s.calls, c = .done

instance (s : Sys) : Decidable s.Finished :=
  inferInstanceAs (Decidable (∀ c ∈ s.calls, c = .done))

/-- The steps come in an order that keeps them apart. -/
def InOrder (s : Sys) : Event → Prop
  | .put i reread => ∀ ctx old, s.calls[i]? = some (.tested ctx old) → s.Current (s.target reread old)
  | .store i => ∀ ctx, s.calls[i]? = some (.ready ctx false) → s.evtCtx = none
  | .signal reread => ∀ found, s.handler = .loaded found → s.Current (s.target reread found)
  | .removeTest => s.remove = .irqFreed → s.evtCtx = none → s.Finished
  | .removePut reread => ∀ found, s.remove = .tested found →
      s.Current (s.target reread found) ∧ s.Finished
  | _ => True

/-! ## The balance -/

def CallPc.holds (ctx : Nat) : CallPc → Bool
  | .got c => c = ctx
  | .tested c _ => c = ctx
  | .ready c _ => c = ctx
  | .done => false

/-- How many calls hold a reference to `ctx` that they did not store yet. -/
def Sys.pending (s : Sys) (ctx : Nat) : Nat := s.calls.countP (CallPc.holds ctx)

/-- How many calls are between their put and their store. -/
def Sys.between (s : Sys) : Nat := s.calls.countP CallPc.isPut

/-- The reference in `evt_ctx`. -/
def Sys.stored (s : Sys) (ctx : Nat) : Nat :=
  if s.evtCtx = some ctx ∧ s.between = 0 ∧ s.remove ≠ .ended then 1 else 0

/-- Every reference is put, or with a call, or in `evt_ctx`. -/
structure Balanced (s : Sys) : Prop where
  refs : ∀ ctx, s.acquired.count ctx = s.put.count ctx + s.pending ctx + s.stored ctx
  one : s.between ≤ 1
  inCtx : 0 < s.between → s.evtCtx ≠ none
  ended : s.remove = .ended → s.Finished

theorem balanced_probed : Balanced probed where
  refs := fun _ => rfl
  one := Nat.zero_le 1
  inCtx := fun h => absurd h (Nat.lt_irrefl 0)
  ended := fun h => by cases h

section
variable {s : Sys} {i : Nat} {pc pc' : CallPc}

theorem closed_iff : s.Closed ↔ s.between = 0 := by
  rw [Sys.Closed, Sys.between, List.countP_eq_zero]
  simp only [Bool.not_eq_true]

theorem Sys.Finished.pending (h : s.Finished) (ctx : Nat) : s.pending ctx = 0 := by
  rw [Sys.pending, List.countP_eq_zero]
  intro c hc
  rw [h c hc]
  exact Bool.false_ne_true

theorem pending_goto (pc' : CallPc) (h : s.calls[i]? = some pc) (ctx : Nat) :
    (s.goto i pc').pending ctx + (if pc.holds ctx then 1 else 0) =
      s.pending ctx + (if pc'.holds ctx then 1 else 0) :=
  countP_set_add _ pc' h

theorem between_goto (pc' : CallPc) (h : s.calls[i]? = some pc) :
    (s.goto i pc').between + (if pc.isPut then 1 else 0) = s.between + (if pc'.isPut then 1 else 0) :=
  countP_set_add _ pc' h

theorem Balanced.accounted (h : Balanced s) : Accounted s where
  put := fun ctx => by
    have hrefs := h.refs ctx
    omega
  ended := fun hended ctx => by
    have hrefs := h.refs ctx
    have hpending := (h.ended hended).pending ctx
    have hstored : s.stored ctx = 0 := if_neg fun hall => hall.2.2 hended
    omega

theorem Balanced.held (h : Balanced s) (hremove : s.remove ≠ .ended) {ctx : Nat}
    (hctx : s.evtCtx = some ctx) (hclosed : s.Closed) : s.Held ctx := by
  have hrefs := h.refs ctx
  have hstored : s.stored ctx = 1 := if_pos ⟨hctx, closed_iff.mp hclosed, hremove⟩
  rw [Sys.Held]
  omega

theorem stored_congr {s' : Sys} (hctx : s'.evtCtx = s.evtCtx) (hbetween : s'.between = s.between)
    (hremove : s'.remove = s.remove) (ctx : Nat) : s'.stored ctx = s.stored ctx := by
  simp only [Sys.stored, hctx, hbetween, hremove]

/-- While a call is between its put and its store, the reference in `evt_ctx` is gone. -/
theorem stored_open {s' : Sys} (h : 0 < s'.between) (ctx : Nat) : s'.stored ctx = 0 :=
  if_neg fun hall => absurd hall.2.1 (Nat.ne_of_gt h)

/-! ### The steps of a call -/

theorem Balanced.acquire (h : Balanced s) (hremove : s.remove ≠ .ended) (ctx : Nat) :
    Balanced { s with calls := s.calls ++ [.got ctx], acquired := ctx :: s.acquired } := by
  let s' : Sys := { s with calls := s.calls ++ [.got ctx], acquired := ctx :: s.acquired }
  have hbetween : s'.between = s.between := List.countP_append
  have hpending (ctx' : Nat) : s'.pending ctx' = s.pending ctx' + if ctx = ctx' then 1 else 0 := by
    have hsplit : s'.pending ctx' = s.pending ctx' + [CallPc.got ctx].countP (CallPc.holds ctx') :=
      List.countP_append
    rw [hsplit, List.countP_singleton]
    simp only [CallPc.holds, decide_eq_true_eq]
  have hacquired (ctx' : Nat) :
      s'.acquired.count ctx' = s.acquired.count ctx' + if ctx = ctx' then 1 else 0 := by
    have hcons : s'.acquired.count ctx' = (ctx :: s.acquired).count ctx' := rfl
    rw [hcons, List.count_cons]
    simp only [beq_iff_eq]
  have hrefs (ctx' : Nat) :
      s'.acquired.count ctx' = s'.put.count ctx' + s'.pending ctx' + s'.stored ctx' := by
    have hbefore := h.refs ctx'
    have hput : s'.put = s.put := rfl
    have hstored : s'.stored ctx' = s.stored ctx' := @stored_congr s s' rfl hbetween rfl ctx'
    rw [hacquired, hput, hpending, hstored]
    omega
  exact ⟨hrefs, hbetween.trans_le h.one, fun hpos => h.inCtx (hbetween.symm.trans_gt hpos),
    fun hended => absurd hended hremove⟩

theorem Balanced.goto (h : Balanced s) (hremove : s.remove ≠ .ended) (hi : s.calls[i]? = some pc)
    (hholds : ∀ ctx, pc'.holds ctx = pc.holds ctx) (hput : pc'.isPut = pc.isPut) :
    Balanced (s.goto i pc') := by
  have hbetween := between_goto pc' hi
  rw [hput] at hbetween
  have hsame : (s.goto i pc').between = s.between := by omega
  refine ⟨fun ctx => ?_, hsame.trans_le h.one, fun hpos => h.inCtx (hsame ▸ hpos),
    fun hended => absurd hended hremove⟩
  have hrefs := h.refs ctx
  have hpending := pending_goto pc' hi ctx
  rw [hholds] at hpending
  have hacquired : (s.goto i pc').acquired = s.acquired := rfl
  have hputs : (s.goto i pc').put = s.put := rfl
  have hstored := @stored_congr s (s.goto i pc') rfl hsame rfl ctx
  rw [hacquired, hputs, hstored]
  omega

theorem Balanced.put (h : Balanced s) (hremove : s.remove ≠ .ended) {ctx old : Nat}
    (hi : s.calls[i]? = some (.tested ctx old)) {found : Option Nat} (hcurrent : s.Current found) :
    Balanced ((s.goto i (.ready ctx true)).give found) := by
  obtain ⟨hne, hfound, hclosed⟩ := hcurrent
  obtain ⟨p, rfl⟩ := Option.ne_none_iff_exists'.mp hne
  let s' : Sys := (s.goto i (.ready ctx true)).give (some p)
  have hnone : s.between = 0 := closed_iff.mp hclosed
  have hbetween : s'.between = 1 := by
    have hgoto : s'.between + 0 = s.between + 1 := between_goto (.ready ctx true) hi
    omega
  have hpending (ctx' : Nat) : s'.pending ctx' = s.pending ctx' := by
    have hgoto : s'.pending ctx' + (if (CallPc.tested ctx old).holds ctx' then 1 else 0) =
        s.pending ctx' + (if (CallPc.ready ctx true).holds ctx' then 1 else 0) :=
      pending_goto (.ready ctx true) hi ctx'
    have hholds : (CallPc.ready ctx true).holds ctx' = (CallPc.tested ctx old).holds ctx' := rfl
    rw [hholds] at hgoto
    omega
  have hput (ctx' : Nat) : s'.put.count ctx' = s.put.count ctx' + s.stored ctx' := by
    have hcons : s'.put.count ctx' = (p :: s.put).count ctx' := rfl
    rw [hcons, List.count_cons, Sys.stored, hfound]
    simp only [beq_iff_eq, Option.some.injEq, hnone, hremove, ne_eq, not_false_eq_true, and_true]
  refine ⟨fun ctx' => ?_, hbetween.le, fun _ => hfound ▸ hne, fun hended => absurd hended hremove⟩
  have hrefs := h.refs ctx'
  have hacquired : s'.acquired = s.acquired := rfl
  have hstored : s'.stored ctx' = 0 := stored_open (by omega) ctx'
  rw [hacquired, hput, hpending, hstored]
  omega

theorem Balanced.unstored (h : Balanced s) {ctx : Nat} {put : Bool}
    (hi : s.calls[i]? = some (.ready ctx put)) (hnull : put = false → s.evtCtx = none) :
    (s.goto i .done).between = 0 ∧ ∀ ctx', s.stored ctx' = 0 := by
  have hgoto : (s.goto i .done).between + (if put then 1 else 0) = s.between + 0 :=
    between_goto .done hi
  have hone := h.one
  cases put with
  | true =>
    rw [if_pos rfl] at hgoto
    exact ⟨by omega, stored_open (by omega)⟩
  | false =>
    have hnone := hnull rfl
    have hclosed : ¬ 0 < s.between := fun hpos => h.inCtx hpos hnone
    rw [if_neg Bool.false_ne_true] at hgoto
    exact ⟨by omega, fun ctx' => if_neg (by simp [hnone])⟩

theorem Balanced.store (h : Balanced s) (hremove : s.remove ≠ .ended) {ctx : Nat} {put : Bool}
    (hi : s.calls[i]? = some (.ready ctx put)) (hnull : put = false → s.evtCtx = none) :
    Balanced { s.goto i .done with evtCtx := some ctx } := by
  let s' : Sys := { s.goto i .done with evtCtx := some ctx }
  obtain ⟨hbetween, hunstored⟩ : s'.between = 0 ∧ ∀ ctx', s.stored ctx' = 0 := h.unstored hi hnull
  have hpending (ctx' : Nat) : s'.pending ctx' + (if ctx = ctx' then 1 else 0) = s.pending ctx' := by
    have hstep : s'.pending ctx' + (if decide (ctx = ctx') then 1 else 0) = s.pending ctx' + 0 :=
      pending_goto .done hi ctx'
    simpa only [decide_eq_true_eq, Nat.add_zero] using hstep
  have hstored (ctx' : Nat) : s'.stored ctx' = if ctx = ctx' then 1 else 0 := by
    have hctx : s'.evtCtx = some ctx := rfl
    have hremove' : s'.remove ≠ .ended := hremove
    simp [Sys.stored, hctx, hbetween, hremove']
  have hrefs (ctx' : Nat) :
      s'.acquired.count ctx' = s'.put.count ctx' + s'.pending ctx' + s'.stored ctx' := by
    have hbefore := h.refs ctx'
    have hacquired : s'.acquired = s.acquired := rfl
    have hput' : s'.put = s.put := rfl
    have hmove := hpending ctx'
    rw [hunstored] at hbefore
    rw [hacquired, hput', hstored]
    omega
  refine ⟨hrefs, hbetween.trans_le (Nat.zero_le 1), fun _ hnone => ?_,
    fun hended => absurd hended hremove⟩
  cases hnone

/-! ### The handler and `edu_remove` -/

theorem Balanced.frame (h : Balanced s) {s' : Sys} (hctx : s'.evtCtx = s.evtCtx)
    (hcalls : s'.calls = s.calls) (hacquired : s'.acquired = s.acquired) (hput : s'.put = s.put)
    (hremove : s.remove ≠ .ended) (hremove' : s'.remove ≠ .ended) : Balanced s' := by
  have hbetween : s'.between = s.between := by rw [Sys.between, hcalls, Sys.between]
  have hpending (ctx : Nat) : s'.pending ctx = s.pending ctx := by
    rw [Sys.pending, hcalls, Sys.pending]
  have hstored (ctx : Nat) : s'.stored ctx = s.stored ctx := by
    simp only [Sys.stored, hctx, hbetween, ne_eq, hremove, hremove', not_false_eq_true, and_true]
  refine ⟨fun ctx => ?_, hbetween.trans_le h.one, ?_, fun hended => absurd hended hremove'⟩
  · rw [hacquired, hput, hpending, hstored, h.refs ctx]
  · rw [hbetween, hctx]
    exact h.inCtx

theorem Balanced.end_null (h : Balanced s) (hnull : s.evtCtx = none) (hfinished : s.Finished) :
    Balanced { s with remove := .ended } := by
  let s' : Sys := { s with remove := .ended }
  have hrefs (ctx : Nat) :
      s'.acquired.count ctx = s'.put.count ctx + s'.pending ctx + s'.stored ctx := by
    have hstored : s'.stored ctx = s.stored ctx := by
      simp only [Sys.stored, hnull, show s'.evtCtx = none from hnull, reduceCtorEq, false_and]
    rw [hstored]
    exact h.refs ctx
  exact ⟨hrefs, h.one, h.inCtx, fun _ => hfinished⟩

theorem Balanced.end_put (h : Balanced s) (hremove : s.remove ≠ .ended) {found : Option Nat}
    (hcurrent : s.Current found) (hfinished : s.Finished) :
    Balanced { s.give found with remove := .ended } := by
  obtain ⟨hne, hfound, hclosed⟩ := hcurrent
  obtain ⟨p, rfl⟩ := Option.ne_none_iff_exists'.mp hne
  let s' : Sys := { s.give (some p) with remove := .ended }
  have hnone : s.between = 0 := closed_iff.mp hclosed
  have hrefs (ctx : Nat) :
      s'.acquired.count ctx = s'.put.count ctx + s'.pending ctx + s'.stored ctx := by
    have hbefore := h.refs ctx
    have hstored : s.stored ctx = if p = ctx then 1 else 0 := by
      simp only [Sys.stored, hfound, Option.some.injEq, hnone, hremove, ne_eq, not_false_eq_true,
        and_true]
    have hput : s'.put.count ctx = s.put.count ctx + if p = ctx then 1 else 0 := by
      have hcons : s'.put.count ctx = (p :: s.put).count ctx := rfl
      rw [hcons, List.count_cons]
      simp only [beq_iff_eq]
    have hgone : s'.stored ctx = 0 := if_neg fun hall => hall.2.2 rfl
    have hacquired : s'.acquired = s.acquired := rfl
    have hpending : s'.pending ctx = s.pending ctx := rfl
    rw [hacquired, hput, hpending, hgone]
    omega
  exact ⟨hrefs, h.one, h.inCtx, fun _ => hfinished⟩

theorem Balanced.step (h : Balanced s) {e : Event} (horder : InOrder s e) :
    Balanced (step s e) := by
  by_cases hremove : s.remove = .ended
  · rw [step_ended hremove]
    exact h
  have heff := step_effect hremove e
  generalize Eventfd.step s e = s' at heff ⊢
  cases heff with
  | skip => exact h
  | acquire ctx => exact h.acquire hremove ctx
  | found i ctx old hgot => exact h.goto hremove hgot (fun _ => rfl) rfl
  | null i ctx hgot => exact h.goto hremove hgot (fun _ => rfl) rfl
  | put i reread ctx old htested => exact h.put hremove htested (horder ctx old htested)
  | store i ctx put hready =>
    refine h.store hremove hready fun hput => ?_
    subst hput
    exact horder ctx hready
  | load | signal => exact h.frame rfl rfl rfl rfl hremove hremove
  | freeIrq | removeTest => exact h.frame rfl rfl rfl rfl hremove (by simp)
  | removeNull hfreed hnull => exact h.end_null hnull (horder hfreed hnull)
  | removePut reread found htested =>
    obtain ⟨hcurrent, hfinished⟩ := horder found htested
    exact h.end_put hremove hcurrent hfinished

/-- The handler is done before `edu_remove` goes on. -/
def IrqFreed (s : Sys) : Prop := s.remove ≠ .waiting → s.handler = .idle

theorem IrqFreed.step (h : IrqFreed s) (e : Event) : IrqFreed (step s e) := by
  by_cases hremove : s.remove = .ended
  · rw [step_ended hremove]
    exact h
  have heff := step_effect hremove e
  generalize Eventfd.step s e = s' at heff ⊢
  cases heff with
  | skip | acquire | found | null | put | store => exact h
  | load ctx hwaiting => exact fun hne => absurd hwaiting hne
  | signal => exact fun _ => rfl
  | freeIrq hidle => exact fun _ => hidle
  | removeTest ctx hfreed => exact fun _ => h (by simp [hfreed])
  | removeNull hfreed => exact fun _ => h (by simp [hfreed])
  | removePut reread found htested => exact fun _ => h (by simp [htested])

theorem Balanced.signals (h : Balanced s) (hirq : IrqFreed s) {e : Event} (horder : InOrder s e) :
    SignalsHeld s e := by
  cases e with
  | signal reread =>
    intro found hloaded
    obtain ⟨hne, hctx, hclosed⟩ := horder found hloaded
    obtain ⟨ctx, htarget⟩ := Option.ne_none_iff_exists'.mp hne
    have hremove : s.remove ≠ .ended := by
      intro hended
      have hidle := hirq (by simp [hended])
      simp [hloaded] at hidle
    exact ⟨ctx, htarget, h.held hremove (hctx.trans htarget) hclosed⟩
  | acquire | test | put | store | load | freeIrq | removeTest | removePut => trivial

end

/-! ## When the references are kept -/

/-- **As long as the steps keep apart**, every signal goes to a context that is held, and each
context is put as often as it was acquired by the end of `edu_remove`, and never more often. -/
theorem references_kept (es : List Event) (h : Along step InOrder probed es) :
    Along step SignalsHeld probed es ∧ Always step Accounted probed es := by
  have hinv : Always step (fun s => Balanced s ∧ IrqFreed s) probed es :=
    Always.of_step (fun _ e hs horder => ⟨hs.1.step horder, hs.2.step e⟩)
      ⟨balanced_probed, fun hne => absurd rfl hne⟩ h
  exact ⟨Along.of_always hinv h fun _ _ hs horder => hs.1.signals hs.2 horder,
    hinv.mono fun _ hs => hs.1.accounted⟩

/-- Two registrations, one after the other, a signal after each, and `edu_remove`. -/
theorem references_kept_two :
    let es : List Event := [.acquire 1, .test 0, .store 0, .load, .signal false, .acquire 2, .test 1,
      .put 1 false, .store 1, .load, .signal true, .freeIrq, .removeTest, .removePut false]
    Along step SignalsHeld probed es ∧ Always step Accounted probed es := by
  intro es
  refine references_kept es ⟨trivial, trivial, fun _ _ => rfl, trivial, fun found h => ?_, trivial,
    trivial, fun ctx old h => ?_, fun ctx h => ?_, trivial, fun found h => ?_, trivial,
    fun _ h => ?_, fun found h => ?_, trivial⟩
  · cases h
    exact ⟨by decide, rfl, by decide⟩
  · cases h
    exact ⟨by decide, rfl, by decide⟩
  · cases h
  · cases h
    exact ⟨by decide, rfl, by decide⟩
  · cases h
  · cases h
    exact ⟨⟨by decide, rfl, by decide⟩, by decide⟩

/-! ### Without overlap -/

/-- A whole registration, a whole run of the handler, or all of `edu_remove`. -/
inductive Whole
  | register (ctx : Nat) (reread : Bool)
  | signal (reread : Bool)
  | remove (reread : Bool)

/-- The steps of one operation after `n` registrations. -/
def Whole.events (n : Nat) : Whole → List Event
  | .register ctx reread => [.acquire ctx, .test n, .put n reread, .store n]
  | .signal reread => [.load, .signal reread]
  | .remove reread => [.freeIrq, .removeTest, .removePut reread]

def Whole.next (n : Nat) : Whole → Nat
  | .register _ _ => n + 1
  | .signal _ | .remove _ => n

/-- One operation after the other. -/
def inTurn : Nat → List Whole → List Event
  | _, [] => []
  | n, w :: ws => w.events n ++ inTurn (w.next n) ws

/-- Nothing is in progress after `n` registrations. -/
structure Quiet (s : Sys) (n : Nat) : Prop where
  finished : s.Finished
  handler : s.handler = .idle
  remove : s.remove = .ended ∨ s.remove = .waiting ∧ s.calls.length = n

theorem Sys.Finished.closed {s : Sys} (h : s.Finished) : s.Closed := by
  intro c hc
  rw [h c hc]
  rfl

theorem in_order_ended {s : Sys} (hfinished : s.Finished) (hidle : s.handler = .idle)
    (hended : s.remove = .ended) (es : List Event) : Along step InOrder s es ∧ run step s es = s := by
  have hnone {i : Nat} {pc : CallPc} (hpc : s.calls[i]? = some pc) : pc = .done :=
    hfinished pc (List.mem_of_getElem? hpc)
  induction es with
  | nil => exact ⟨trivial, rfl⟩
  | cons e es ih =>
    rw [run_cons, step_ended hended]
    refine ⟨⟨?_, ?_⟩, ih.2⟩
    · cases e with
      | put i reread => exact fun ctx old h => by cases hnone h
      | store i => exact fun ctx h => by cases hnone h
      | signal reread => exact fun found h => by rw [hidle] at h; cases h
      | removeTest => exact fun h => by rw [hended] at h; cases h
      | removePut reread => exact fun found h => by rw [hended] at h; cases h
      | acquire | test | load | freeIrq => trivial
    · rw [step_ended hended]
      exact ih.1

theorem Quiet.whole {s : Sys} {n : Nat} (h : Quiet s n) (w : Whole) :
    Along step InOrder s (w.events n) ∧ Quiet (run step s (w.events n)) (w.next n) := by
  obtain ⟨hfinished, hidle, hended | ⟨hwaiting, hlength⟩⟩ := h
  · obtain ⟨horder, hrun⟩ := in_order_ended hfinished hidle hended (w.events n)
    rw [hrun]
    exact ⟨horder, hfinished, hidle, .inl hended⟩
  · obtain ⟨evtCtx, calls, handler, remove, acquired, put⟩ := s
    subst hidle hwaiting hlength
    have hall : ∀ c ∈ calls, c = .done := hfinished
    have hclosed : ∀ c ∈ calls, c.isPut = false := Sys.Finished.closed hfinished
    cases w with
    | register ctx reread =>
      refine ⟨?_, ?_, ?_, ?_⟩
      · have htested (found : Nat) : (CallPc.tested ctx found).isPut = false := rfl
        cases evtCtx <;> cases reread <;>
          simp [Whole.events, Along, step, InOrder, Sys.goto, Sys.give, Sys.target, Sys.Current,
            Sys.Closed, or_imp, forall_and, htested]
        all_goals exact hclosed
      · cases evtCtx <;>
          simpa [Whole.events, step, Sys.goto, Sys.give, Sys.Finished, or_imp, forall_and] using hall
      · cases evtCtx <;> simp [Whole.events, step, Sys.goto, Sys.give]
      · cases evtCtx <;> simp [Whole.events, Whole.next, step, Sys.goto, Sys.give]
    | signal reread =>
      refine ⟨?_, ?_, ?_, ?_⟩
      · cases evtCtx <;> cases reread <;>
          simp [Whole.events, Along, step, InOrder, Sys.target, Sys.Current, Sys.Closed]
        all_goals exact hclosed
      · cases evtCtx <;> simpa [Whole.events, step, Sys.Finished] using hall
      · cases evtCtx <;> simp [Whole.events, step]
      · cases evtCtx <;> simp [Whole.events, Whole.next, step]
    | remove reread =>
      refine ⟨?_, ?_, ?_, ?_⟩
      · cases evtCtx <;> cases reread <;>
          simp [Whole.events, Along, step, InOrder, Sys.target, Sys.Current, Sys.Closed, Sys.Finished]
        all_goals first | exact hall | exact ⟨hclosed, hall⟩
      · cases evtCtx <;> simpa [Whole.events, step, Sys.give, Sys.Finished] using hall
      · cases evtCtx <;> simp [Whole.events, step, Sys.give]
      · cases evtCtx <;> simp [Whole.events, step, Sys.give]

theorem in_order_of_quiet {s : Sys} {n : Nat} (h : Quiet s n) (ws : List Whole) :
    Along step InOrder s (inTurn n ws) := by
  induction ws generalizing s n with
  | nil => trivial
  | cons w ws ih =>
    obtain ⟨horder, hquiet⟩ := h.whole w
    exact (along_append _).mpr ⟨horder, ih hquiet⟩

/-- **Operations that do not overlap come in order.** -/
theorem in_order_in_turn (ws : List Whole) : Along step InOrder probed (inTurn 0 ws) :=
  in_order_of_quiet ⟨fun _ hmem => absurd hmem List.not_mem_nil, rfl, .inr ⟨rfl, rfl⟩⟩ ws

/-- The second call has put the first context and not yet stored its own when the handler, which
has found the first one, signals it. -/
theorem signal_after_put :
    let es : List Event := [.acquire 1, .test 0, .store 0, .acquire 2, .test 1, .load, .put 1 false,
      .signal false]
    ¬ (Along step SignalsHeld probed es ∧ Always step Accounted probed es) := by
  rintro es ⟨hsignals, -⟩
  obtain ⟨ctx, htarget, hheld⟩ := hsignals.2.2.2.2.2.2.2.1 1 rfl
  cases htarget
  exact absurd hheld (by unfold Sys.Held; decide)

end PcieDriver.Edu.Eventfd
