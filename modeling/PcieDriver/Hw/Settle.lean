import PcieDriver.Hw.Done
import PcieDriver.Qemu.Bus

/-!
# Until DONE is reported

A command that was sent goes through its own steps, the timer and the handler, which race. Whatever
the race has left in `last_status`, the line stays high, so the handler comes again.
-/

open Base
open PcieDriver.Ring (ProtoPcieCommand RegWrite regCtrl ctrlStart statusReady)
open PcieDriver.Qemu (protoPcieMmioWrite timerExpires write_effect expire_effect)

namespace PcieDriver.Hw

deriving instance DecidableEq for Call, Event

/-- No call begins. -/
def Event.Later (e : Event) : Prop := ∀ call, e ≠ .begin call

/-! ## The property -/

/-- The command has left the driver, and the device is through with it. -/
structure Finished (s : Sys) : Prop where
  idle : s.call = .idle
  done : hasDone s.dev.status = true

/-- `GET_STATUS` reports DONE, now and until the next call. -/
def ForGood (s : Sys) : Prop :=
  ∀ es : List Event, (∀ e ∈ es, e.Later) →
    ∃ status, (run step s es).getStatus = some status ∧ hasDone status = true

/-- What the handler still has to do for a DONE that stays. -/
def Sys.due (s : Sys) : List Event :=
  match s.handler with
  | .idle => if hasDone s.core.lastStatus then [] else [.enter, .read, .store]
  | .entered => if hasDone s.core.lastStatus then [] else [.read, .store]
  | .read v =>
    -- What it is about to store may be older than the command.
    if hasDone v then if hasDone s.core.lastStatus then [] else [.store]
    else [.store, .ack, .enter, .read, .store]
  | .stored _ => if hasDone s.core.lastStatus then [] else [.ack, .enter, .read, .store]

theorem due_length (s : Sys) : s.due.length ≤ 5 := by
  unfold Sys.due
  split <;> split_ifs <;> decide

/-! ## The line of a device that is done -/

/-- A device that is done holds the line high. -/
def Sys.Raised (s : Sys) : Prop := hasDone s.dev.status = true → s.dev.irq = true

section
variable {s : Sys}

theorem done_ready : hasDone statusReady = false := by decide

theorem write_raised {dev : Qemu.ProtoPcieState} (h : hasDone dev.status = true → dev.irq = true)
    (w : RegWrite) :
    hasDone (protoPcieMmioWrite dev w).status = true → (protoPcieMmioWrite dev w).irq = true := by
  obtain ⟨hstatus, hirq, -⟩ := write_effect dev w
  rw [hstatus, hirq]
  cases hreset : Qemu.resets w
  · simp only [Bool.false_or, Bool.not_false, Bool.and_true]
    split_ifs
    · simp [done_ready]
    · exact h
  · simp [done_ready]

theorem expire_raised {dev : Qemu.ProtoPcieState} (h : hasDone dev.status = true → dev.irq = true) :
    hasDone (timerExpires dev).status = true → (timerExpires dev).irq = true := by
  obtain ⟨hstatus, hirq, -⟩ := expire_effect dev
  rw [hstatus, hirq]
  cases dev.timer
  · simpa using h
  · simp

theorem note_dev (s : Sys) (call : Call) (w : RegWrite) : (s.note call w).dev = s.dev := by
  unfold Sys.note
  split
  · split_ifs <;> rfl
  · rfl

theorem callWrite_dev (s : Sys) (call : Call) (n : Nat) (w : RegWrite) :
    (s.callWrite call n w).dev = protoPcieMmioWrite s.dev w :=
  note_dev (s.busWrite w) call w

theorem raised_step (h : s.Raised) (e : Event) : (step s e).Raised := by
  have heff := step_effect s e
  generalize step s e = s' at heff
  cases heff with
  | skip => exact h
  | begin call =>
    cases call with
    | send c => exact h
    | reset =>
      rw [Sys.Raised, Sys.begin, callWrite_dev]
      exact write_raised h _
  | advance =>
    unfold Sys.advance
    split
    · exact h
    · split
      · rw [Sys.Raised, callWrite_dev]
        exact write_raised h _
      · exact h
    · exact h
  | expire => exact expire_raised h
  | enter | read | store => exact h
  | ack v => exact write_raised h _

theorem raised_run (dmaBuf : Mem) (dmaHandle : BitVec 64) (es : List Event) :
    (run step (ready dmaBuf dmaHandle) es).Raised :=
  run_inv (fun _ e h => raised_step h e) (by simp [Sys.Raised, ready, Qemu.protoPcieRealize, done_ready])

/-! ## The handler, once the device is done -/

structure Waiting (s : Sys) : Prop where
  finished : Finished s
  raised : s.dev.irq = true

theorem Finished.waiting (h : Finished s) (hraised : s.Raised) : Waiting s := ⟨h, hraised h.done⟩

theorem expire_done {dev : Qemu.ProtoPcieState} (h : hasDone dev.status = true) :
    hasDone (timerExpires dev).status = true := by
  unfold timerExpires
  split_ifs
  · exact done_complete _
  · exact h

/-- What the handler has read is what the device shows, once it is done. -/
theorem Waiting.frame (h : Waiting s) {s' : Sys} (hcall : s'.call = s.call)
    (hdev : s'.dev = s.dev) : Waiting s' := by
  obtain ⟨⟨hidle, hdone⟩, hraised⟩ := h
  exact ⟨⟨hcall.trans hidle, hdev ▸ hdone⟩, hdev ▸ hraised⟩

theorem waiting_step (h : Waiting s) {e : Event} (he : e.Later) : Waiting (step s e) := by
  have heff := step_effect s e
  generalize step s e = s' at heff
  cases heff with
  | skip => exact h
  | begin call => exact absurd rfl (he call)
  | advance =>
    simp only [Sys.advance, h.finished.idle]
    exact h
  | expire =>
    refine ⟨⟨h.finished.idle, expire_done h.finished.done⟩, ?_⟩
    exact expire_raised (fun _ => h.raised) (expire_done h.finished.done)
  | enter | read | store => exact h.frame rfl rfl
  | ack => exact ⟨⟨h.finished.idle, h.finished.done⟩, h.raised⟩

theorem due_congr {s' : Sys} (hhandler : s'.handler = s.handler) (hcore : s'.core = s.core) :
    s'.due = s.due := by
  rw [Sys.due, hhandler, hcore]
  rfl

theorem due_skip {e : Event} (he : e = .advance ∨ e = .expire) : advance s.due e = s.due := by
  rcases he with rfl | rfl <;> unfold Sys.due <;> split <;> split_ifs <;> rfl

/-- Every step of the handler is the next one that is due, or nothing is due any more. -/
theorem due_step (h : Waiting s) {e : Event} (he : e.Later) :
    (step s e).due = advance s.due e := by
  cases e with
  | begin call => exact absurd rfl (he call)
  | advance =>
    rw [due_skip (.inl rfl)]
    simp only [step, Sys.advance, h.finished.idle]
  | expire =>
    rw [due_skip (.inr rfl)]
    exact due_congr rfl rfl
  | enter =>
    cases hhandler : s.handler with
    | idle =>
      simp only [step, hhandler, h.raised, if_true, Sys.due]
      split_ifs <;> rfl
    | entered | read | stored =>
      simp only [step, hhandler, Sys.due]
      split_ifs <;> rfl
  | read =>
    cases hhandler : s.handler with
    | entered =>
      simp [step, hhandler, Sys.due, h.finished.done]
      split_ifs <;> rfl
    | idle | read | stored =>
      simp only [step, hhandler, Sys.due]
      split_ifs <;> rfl
  | store =>
    cases hhandler : s.handler with
    | read v =>
      simp only [step, hhandler, Sys.due, protoIrqHandler]
      split_ifs <;> rfl
    | idle | entered | stored =>
      simp only [step, hhandler, Sys.due]
      split_ifs <;> rfl
  | ack =>
    cases hhandler : s.handler with
    | stored v =>
      simp only [step, hhandler, Sys.due, Sys.busWrite]
      split_ifs <;> rfl
    | idle | entered | read =>
      simp only [step, hhandler, Sys.due]
      split_ifs <;> rfl

theorem waiting_run (h : Waiting s) {es : List Event} (hes : ∀ e ∈ es, e.Later) :
    Waiting (run step s es) ∧ (run step s es).due = run advance s.due es :=
  run_follows Sys.due (fun _ _ h he => ⟨waiting_step h he, due_step h he⟩) h hes

theorem reported_of_due (hdue : s.due = []) : hasDone s.core.lastStatus = true := by
  unfold Sys.due at hdue
  split at hdue <;> split_ifs at hdue <;> assumption

/-- Something is due while DONE is not reported, or is about to be taken back. -/
theorem not_forGood_of_due (h : Waiting s) (hdue : s.due ≠ []) : ¬ ForGood s := by
  intro hforGood
  by_cases hlast : hasDone s.core.lastStatus = true
  · -- Only a handler that holds an older status has anything to do.
    obtain ⟨v, hread, hv⟩ : ∃ v, s.handler = .read v ∧ hasDone v = false := by
      unfold Sys.due at hdue
      cases hhandler : s.handler <;> simp_all
    obtain ⟨status, hstatus, hdone⟩ := hforGood [.store] (by simp [Event.Later])
    have hstored : (run step s [.store]).getStatus = some v := by
      simp [step, hread, Sys.getStatus, h.finished.idle, protoIrqHandler]
    rw [Option.some.inj (hstored.symm.trans hstatus), hdone] at hv
    cases hv
  · obtain ⟨status, hstatus, hdone⟩ := hforGood [] (by simp)
    simp only [run_nil, Sys.getStatus, h.finished.idle, Option.some.injEq] at hstatus
    exact hlast (hstatus ▸ hdone)

theorem forGood_iff_due (h : Waiting s) : ForGood s ↔ s.due = [] := by
  refine ⟨fun hforGood => by_contra fun hdue => not_forGood_of_due h hdue hforGood, ?_⟩
  intro hdue es hes
  obtain ⟨hwaiting, hrun⟩ := waiting_run h hes
  have hdue' : (run step s es).due = [] := by
    rw [hrun, hdue]
    exact (run_advance_iff [] es).mpr (List.nil_sublist es)
  refine ⟨(run step s es).core.lastStatus, ?_, reported_of_due hdue'⟩
  simp only [Sys.getStatus, hwaiting.finished.idle]

/-- Once the device is done, DONE is reported for good when what is due has come in order. -/
theorem settles_iff (h : Waiting s) {es : List Event} (hes : ∀ e ∈ es, e.Later) :
    ForGood (run step s es) ↔ s.due.Sublist es := by
  obtain ⟨hwaiting, hrun⟩ := waiting_run h hes
  rw [forGood_iff_due hwaiting, hrun, run_advance_iff]

/-! ## The command, until the device is done -/

/-- What the call still has to do. -/
def Sys.callDue (s : Sys) : List Event :=
  match s.call with
  | .idle => []
  | .writing _ n => List.replicate (7 - n) .advance
  | .storing _ => [.advance]

/-- What a device that was started still has to do. -/
def Sys.expiry (s : Sys) : List Event := if hasDone s.dev.status then [] else [.expire]

/-- What is to come until the device is done. The fifth write starts it. -/
def Sys.devDue (s : Sys) : List Event :=
  match s.call with
  | .writing _ n => if n < 5 then List.replicate (5 - n) .advance ++ [.expire] else s.expiry
  | _ => s.expiry

/-- The call has made its writes. -/
def Sys.Written (s : Sys) : Prop :=
  (∃ c, s.call = .writing (.send c) 5) ∨ (∃ v, s.call = .storing v) ∨ s.call = .idle

/-- A `SEND_CMD` is on its way. -/
inductive Sending (s : Sys) : Prop
  | before (c) (n) (hcall : s.call = .writing (.send c) n) (hn : n < 5)
  | started (hwritten : s.Written) (hdev : hasDone s.dev.status = true ∨ s.dev.timer = true)

/-- The next state, with what is left of both tasks. -/
structure Onward (s : Sys) (e : Event) (s' : Sys) : Prop where
  sending : Sending s'
  call : s'.callDue = advance s.callDue e
  dev : s'.devDue = advance s.devDue e

theorem callDue_skip {e : Event} (he : e ≠ .advance) : advance s.callDue e = s.callDue := by
  apply advance_of_ne
  unfold Sys.callDue
  split
  · simp
  · simp [List.head?_replicate, he.symm]
  · simp [he.symm]

theorem devDue_written (h : s.Written) : s.devDue = s.expiry := by
  rcases h with ⟨c, hcall⟩ | ⟨v, hcall⟩ | hcall <;> simp [Sys.devDue, hcall]

theorem devDue_before {call : Call} {n : Nat} (hcall : s.call = .writing call n) (hn : n < 5) :
    s.devDue = .advance :: (List.replicate (4 - n) .advance ++ [.expire]) := by
  rw [Sys.devDue, hcall]
  simp only [if_pos hn]
  rw [show 5 - n = 4 - n + 1 by omega, List.replicate_succ, List.cons_append]

theorem expiry_skip {e : Event} (he : e ≠ .expire) : advance s.expiry e = s.expiry := by
  apply advance_of_ne
  unfold Sys.expiry
  split_ifs <;> simp [he.symm]

theorem devDue_skip (h : Sending s) {e : Event} (he : e ≠ .advance) (he' : e ≠ .expire) :
    advance s.devDue e = s.devDue := by
  cases h with
  | before c n hcall hn =>
    rw [devDue_before hcall hn]
    exact if_neg he
  | started hwritten => rw [devDue_written hwritten, expiry_skip he']

theorem Sending.frame (h : Sending s) {s' : Sys} (hcall : s'.call = s.call)
    (hstatus : s'.dev.status = s.dev.status) (htimer : s'.dev.timer = s.dev.timer) {e : Event}
    (he : e ≠ .advance) (he' : e ≠ .expire) : Onward s e s' where
  sending := by
    cases h with
    | before c n hwriting hn => exact .before c n (hcall.trans hwriting) hn
    | started hwritten hdev =>
      rw [Sys.Written, ← hcall] at hwritten
      exact .started hwritten (hstatus ▸ htimer ▸ hdev)
  call := by
    rw [callDue_skip he, Sys.callDue, hcall]
    rfl
  dev := by
    rw [devDue_skip h he he', Sys.devDue, Sys.expiry, hcall, hstatus]
    rfl

theorem onward_written {s' : Sys} (hwritten : s.Written)
    (hdev : hasDone s.dev.status = true ∨ s.dev.timer = true) (hwritten' : s'.Written)
    (hsame : s'.dev = s.dev) (hcall : s'.callDue = advance s.callDue .advance) :
    Onward s .advance s' where
  sending := .started hwritten' (hsame ▸ hdev)
  call := hcall
  dev := by
    rw [devDue_written hwritten, devDue_written hwritten', expiry_skip (by simp), Sys.expiry, hsame]
    rfl

/-- The registers before `REG_CTRL` mean nothing to the status, and the start makes it READY. -/
theorem onward_write {c : ProtoPcieCommand} {n : Nat} (hcall : s.call = .writing (.send c) n)
    (hn : n < 5) : Onward s .advance s.advance := by
  obtain ⟨w, hw⟩ : ∃ w, (s.core.writes (.send c))[n]? = some w :=
    ⟨_, List.getElem?_eq_getElem (by simpa [Core.writes] using hn)⟩
  have hnext : s.advance = s.callWrite (.send c) n w := by simp only [Sys.advance, hcall, hw]
  have hwriting : (s.callWrite (.send c) n w).call = .writing (.send c) (n + 1) := rfl
  rw [hnext]
  have hcallDue : (s.callWrite (.send c) n w).callDue = advance s.callDue .advance := by
    rw [Sys.callDue, hwriting, Sys.callDue, hcall]
    simp only
    rw [show 7 - n = 7 - (n + 1) + 1 by omega, List.replicate_succ]
    rfl
  by_cases hlast : n = 4
  · subst hlast
    obtain rfl : w = ⟨regCtrl, ctrlStart⟩ := (Option.some.inj hw).symm
    have hdev : (s.callWrite (.send c) 4 ⟨regCtrl, ctrlStart⟩).dev =
        { s.dev with status := statusReady, timer := true } := by
      rw [callWrite_dev]
      rfl
    refine ⟨.started (.inl ⟨c, hwriting⟩) (.inr (by rw [hdev])), hcallDue, ?_⟩
    rw [devDue_before hcall hn, devDue_written (.inl ⟨c, hwriting⟩), Sys.expiry, hdev,
      if_neg (by rw [done_ready]; decide)]
    rfl
  · refine ⟨.before c (n + 1) hwriting (by omega), hcallDue, ?_⟩
    rw [devDue_before hcall hn, devDue_before hwriting (by omega),
      show 4 - n = 4 - (n + 1) + 1 by omega, List.replicate_succ]
    rfl

theorem onward_advance (h : Sending s) : Onward s .advance s.advance := by
  cases h with
  | before c n hcall hn => exact onward_write hcall hn
  | started hwritten hdev =>
    have hcases := hwritten
    rcases hcases with ⟨c, hcall⟩ | ⟨v, hcall⟩ | hcall
    · have hnone : (s.core.writes (.send c))[5]? = none := rfl
      simp only [Sys.advance, hcall, hnone]
      refine onward_written hwritten hdev ?_ ?_ ?_
      · exact .inr (.inl ⟨_, rfl⟩)
      · rfl
      · simp [Sys.callDue, hcall, advance]
    · simp only [Sys.advance, hcall]
      refine onward_written hwritten hdev ?_ ?_ ?_
      · exact .inr (.inr rfl)
      · rfl
      · simp [Sys.callDue, hcall, advance]
    · simp only [Sys.advance, hcall]
      apply onward_written hwritten hdev hwritten rfl
      simp [Sys.callDue, hcall, advance]

theorem onward_expire (h : Sending s) : Onward s .expire { s with dev := timerExpires s.dev } := by
  let s' : Sys := { s with dev := timerExpires s.dev }
  cases h with
  | before c n hcall hn =>
    have hcall' : s'.call = .writing (.send c) n := hcall
    refine ⟨.before c n hcall hn, (callDue_skip (by simp)).symm, ?_⟩
    rw [devDue_before hcall hn]
    exact devDue_before hcall' hn
  | started hwritten hdev =>
    have hwritten' : s'.Written := hwritten
    have hdone : hasDone (timerExpires s.dev).status = true := by
      rcases hdev with hdone | htimer
      · exact expire_done hdone
      · rw [timerExpires, if_pos htimer]
        exact done_complete _
    refine ⟨.started hwritten (.inl hdone), (callDue_skip (by simp)).symm, ?_⟩
    have hempty : s'.devDue = [] := by rw [devDue_written hwritten', Sys.expiry, if_pos hdone]
    rw [devDue_written hwritten, Sys.expiry]
    split_ifs <;> exact hempty

theorem Sending.onward (h : Sending s) {e : Event} (he : e.Later) : Onward s e (step s e) := by
  by_cases hadvance : e = .advance
  · subst hadvance
    exact onward_advance h
  by_cases hexpire : e = .expire
  · subst hexpire
    exact onward_expire h
  have heff := step_effect s e
  generalize step s e = s' at heff
  cases heff with
  | begin call => exact absurd rfl (he call)
  | advance => exact absurd rfl hadvance
  | expire => exact absurd rfl hexpire
  | skip | enter | read | store | ack =>
    apply h.frame _ _ _ hadvance hexpire <;> rfl

theorem finished_iff_due (h : Sending s) : Finished s ↔ s.callDue = [] ∧ s.devDue = [] := by
  constructor
  · rintro ⟨hidle, hdone⟩
    simp [Sys.callDue, devDue_written (.inr (.inr hidle)), Sys.expiry, hidle, hdone]
  · rintro ⟨hcall, hdev⟩
    have hidle : s.call = .idle := by
      unfold Sys.callDue at hcall
      split at hcall
      · assumption
      · next call n hwriting =>
        cases h with
        | before c m hbefore hm =>
          obtain ⟨-, rfl⟩ := CallPc.writing.inj (hwriting.symm.trans hbefore)
          simp at hcall
          omega
        | started hwritten =>
          rcases hwritten with ⟨c, hfive⟩ | ⟨v, hstoring⟩ | hidle
          · obtain ⟨-, rfl⟩ := CallPc.writing.inj (hwriting.symm.trans hfive)
            cases hcall
          · rw [hwriting] at hstoring
            cases hstoring
          · exact hidle
      · cases hcall
    refine ⟨hidle, ?_⟩
    rw [devDue_written (.inr (.inr hidle)), Sys.expiry] at hdev
    split_ifs at hdev with hdone
    exact hdone

end

/-! ## The result -/

/-- **A command that no other call follows**, sent in any state that is reached without a call in
progress: it is finished exactly when its steps and the timer have come, and from then on DONE is
reported for good exactly when the at most five steps that the handler owes have come in order. -/
theorem send_settles (dmaBuf : Mem) (dmaHandle : BitVec 64) (before : List Event)
    (hidle : (run step (ready dmaBuf dmaHandle) before).call = .idle) (c : ProtoPcieCommand)
    (es : List Event) (hes : ∀ e ∈ es, e.Later) :
    let s := run step (ready dmaBuf dmaHandle) (before ++ .begin (.send c) :: es)
    (Finished s ↔ (List.replicate 7 Event.advance).Sublist es ∧
      (List.replicate 5 Event.advance ++ [Event.expire]).Sublist es) ∧
    (Finished s → s.due.length ≤ 5 ∧
      ∀ es' : List Event, (∀ e ∈ es', e.Later) → (ForGood (run step s es') ↔ s.due.Sublist es')) := by
  intro s
  constructor
  · have hs : s = run step ((run step (ready dmaBuf dmaHandle) before).begin (.send c)) es := by
      simp only [s, run_append, run_cons, step, hidle]
    generalize run step (ready dmaBuf dmaHandle) before = s₀ at hs
    have hsending : Sending (s₀.begin (.send c)) := .before c 0 rfl (by decide)
    obtain ⟨hsent, hcall⟩ := run_follows Sys.callDue
      (fun _ _ h he => ⟨(Sending.onward h he).sending, (Sending.onward h he).call⟩) hsending hes
    obtain ⟨-, hdev⟩ := run_follows Sys.devDue
      (fun _ _ h he => ⟨(Sending.onward h he).sending, (Sending.onward h he).dev⟩) hsending hes
    rw [hs, finished_iff_due hsent, hcall, hdev, run_advance_iff, run_advance_iff]
    rfl
  · intro hfinished
    have hwaiting := hfinished.waiting (raised_run dmaBuf dmaHandle _)
    exact ⟨due_length s, fun es' hes' => settles_iff hwaiting hes'⟩

/-- The DONE that the handler has stored too early comes back. -/
theorem send_settles_overtaken :
    let es := List.replicate 6 Event.advance ++ [.expire, .enter, .read, .store, .advance]
    let s := run step (ready Mem.zero 0) (.begin (.send ⟨1, 0, Vector.replicate 256 0⟩) :: es)
    s.getStatus = some statusReady ∧ Finished s ∧ ¬ ForGood (run step s [.ack, .enter]) ∧
      ForGood (run step s [.ack, .enter, .read, .store]) := by
  intro es s
  obtain ⟨hiff, hafter⟩ := send_settles Mem.zero 0 [] rfl ⟨1, 0, Vector.replicate 256 0⟩ es
    (by simp [es, Event.Later])
  have hfinished : Finished s := hiff.mpr (by decide)
  have hdue : s.due = [.ack, .enter, .read, .store] := by
    have hhandler : s.handler = .stored (statusReady ||| Ring.statusDone) := rfl
    have hlast : s.core.lastStatus = statusReady := rfl
    rw [Sys.due, hhandler, hlast]
    decide
  have hforGood (es' : List Event) (hes' : ∀ e ∈ es', e.Later) :
      ForGood (run step s es') ↔ s.due.Sublist es' := (hafter hfinished).2 es' hes'
  refine ⟨rfl, hfinished, ?_, ?_⟩
  · rw [hforGood [.ack, .enter] (by simp [Event.Later]), hdue]
    decide
  · rw [hforGood [.ack, .enter, .read, .store] (by simp [Event.Later]), hdue]

end PcieDriver.Hw
