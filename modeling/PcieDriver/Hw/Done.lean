import PcieDriver.Hw.System

/-!
# DONE, and DONE no more

The handler stores `last_status` without the mutex. If it does so between the read and the store of a
call, the call stores what it read before.
-/

open Base
open PcieDriver.Ring (ProtoPcieCommand RegWrite regCtrl regDoorbell regDmaLo regDmaHi regDmaLen
  ctrlReset ctrlStart statusReady statusDone)
open PcieDriver.Qemu (ProtoPcieState protoPcieMmioRead protoPcieMmioWrite timerExpires)

namespace PcieDriver.Hw

/-! ## The property and the condition -/

/-- What was recorded is reported. -/
def Reported (s : Sys) : Prop :=
  ∀ status, s.getStatus = some status → s.recorded = true → hasDone status = true

/-- A call that is about to store a status without DONE was not overtaken by the handler. -/
def NotOvertaken (s : Sys) : Event → Prop
  | .advance => ∀ v, s.call = .storing v → s.recorded = true → hasDone v = true
  | _ => True

/-! ## What the handler can read -/

/-- The handler was entered and has not stored yet. -/
def HandlerPc.busy : HandlerPc → Bool
  | .idle | .stored _ => false
  | .entered | .read _ => true

/-- Nothing that a handler has read, or is about to read, takes back what is recorded. -/
structure Seen (s : Sys) : Prop where
  recorded : s.recorded = true → hasDone s.dev.status = true ∨
    s.dev.irq = false ∧ s.handler.busy = false
  fresh : ∀ v, s.handler = .read v → s.fresh = true → hasDone v = true →
    hasDone s.dev.status = true ∨ s.dev.irq = false
  current : ∀ v, s.handler = .read v → s.recorded = true → hasDone v = true
  begun : ∀ n, s.call = .writing .reset n → 1 ≤ n

theorem seen_ready (dmaBuf : Mem) (dmaHandle : BitVec 64) : Seen (ready dmaBuf dmaHandle) where
  recorded := fun h => by cases h
  fresh := fun _ h => by cases h
  current := fun _ h => by cases h
  begun := fun _ h => by cases h

theorem done_complete (dev : ProtoPcieState) :
    hasDone (Qemu.protoPcieComplete dev).status = true := by
  have hstatus : (Qemu.protoPcieComplete dev).status = statusReady ||| statusDone := rfl
  rw [hstatus]
  decide

section
variable {s : Sys}

theorem write_other (dev : ProtoPcieState) {w : RegWrite} (h : w.reg ≠ regCtrl) :
    (protoPcieMmioWrite dev w).status = dev.status ∧ (protoPcieMmioWrite dev w).irq = dev.irq := by
  rw [protoPcieMmioWrite, if_neg h]
  split_ifs <;> exact ⟨rfl, rfl⟩

theorem Seen.frame (h : Seen s) {s' : Sys} (hstatus : s'.dev.status = s.dev.status)
    (hirq : s'.dev.irq = s.dev.irq) (hhandler : s'.handler = s.handler) (hfresh : s'.fresh = s.fresh)
    (hrecorded : s'.recorded = s.recorded) (hbegun : ∀ n, s'.call = .writing .reset n → 1 ≤ n) :
    Seen s' := by
  refine ⟨?_, ?_, ?_, hbegun⟩
  · rw [hrecorded, hstatus, hirq, hhandler]
    exact h.recorded
  · rw [hhandler, hfresh, hstatus, hirq]
    exact h.fresh
  · rw [hhandler, hrecorded]
    exact h.current

/-- A step after which nothing is recorded or about to be. -/
theorem seen_of_cleared {s' : Sys} (hrecorded : s'.recorded = false) (hfresh : s'.fresh = false)
    (hbegun : ∀ n, s'.call = .writing .reset n → 1 ≤ n) : Seen s' where
  recorded := by simp [hrecorded]
  fresh := by simp [hfresh]
  current := by simp [hrecorded]
  begun := hbegun

theorem Seen.callWrite_send (h : Seen s) (c : ProtoPcieCommand) (n : Nat) (w : RegWrite) :
    Seen (s.callWrite (.send c) n w) := by
  have hbegun : ∀ m, (s.callWrite (.send c) n w).call = .writing .reset m → 1 ≤ m :=
    fun m hm => by cases hm
  by_cases hctrl : w.reg = regCtrl
  · apply seen_of_cleared _ _ hbegun <;> simp only [Sys.callWrite, Sys.note, if_pos hctrl]
  · obtain ⟨hstatus, hirq⟩ := write_other s.dev hctrl
    apply h.frame _ _ _ _ _ hbegun <;>
      simp only [Sys.callWrite, Sys.note, Sys.busWrite, if_neg hctrl, hstatus, hirq]

theorem Seen.advance (h : Seen s) : Seen s.advance := by
  unfold Sys.advance
  split
  · exact h
  · next call n hcall =>
    split
    · next w hw =>
      cases call with
      | send c => exact h.callWrite_send c n w
      | reset =>
        -- The first write came with the call, and the second one is 0.
        have hn := h.begun n hcall
        have hsecond : n = 1 ∧ w = ⟨regCtrl, 0⟩ := by
          rcases n with _ | _ | n
          · omega
          · exact ⟨rfl, (Option.some.inj hw).symm⟩
          · cases hw
        obtain ⟨rfl, rfl⟩ := hsecond
        exact h.frame rfl rfl rfl rfl rfl fun m hm => by cases hm; decide
    · exact h.frame rfl rfl rfl rfl rfl fun m hm => by cases hm
  · exact h.frame rfl rfl rfl rfl rfl fun m hm => by cases hm

theorem Seen.begin (h : Seen s) (call : Call) : Seen (s.begin call) := by
  cases call with
  | send c =>
    refine ⟨?_, h.fresh, ?_, ?_⟩ <;> simp [Sys.begin]
  | reset =>
    refine ⟨?_, fun _ _ _ _ => .inr rfl, ?_, ?_⟩ <;>
      simp [Sys.begin, Sys.callWrite, Sys.note, Sys.busWrite]

theorem Seen.expire (h : Seen s) : Seen { s with dev := timerExpires s.dev } := by
  unfold timerExpires
  split_ifs
  · have hdone := done_complete { s.dev with timer := false }
    exact ⟨fun _ => .inl hdone, fun _ _ _ _ => .inl hdone, h.current, h.begun⟩
  · exact h

theorem Seen.enter (h : Seen s) (hirq : s.dev.irq = true) : Seen { s with handler := .entered } := by
  refine ⟨?_, ?_, ?_, h.begun⟩
  · intro hr
    rcases h.recorded hr with hdone | ⟨hlow, -⟩
    · exact .inl hdone
    · rw [hirq] at hlow
      cases hlow
  · simp
  · simp

theorem Seen.busy (h : Seen s) (hbusy : s.handler.busy = true) (hrecorded : s.recorded = true) :
    hasDone s.dev.status = true := by
  rcases h.recorded hrecorded with hdone | ⟨-, hidle⟩
  · exact hdone
  · rw [hbusy] at hidle
    cases hidle

theorem Seen.read (h : Seen s) (hentered : s.handler = .entered)
    (inFlight : Option ProtoPcieCommand) :
    Seen { s with handler := .read s.dev.status, fresh := true, inFlight := inFlight } := by
  have hbusy : s.handler.busy = true := by
    rw [hentered]
    rfl
  refine ⟨fun hr => .inl (h.busy hbusy hr), ?_, ?_, h.begun⟩
  · intro v hread _ hdone
    obtain rfl := HandlerPc.read.inj hread
    exact .inl hdone
  · intro v hread hr
    obtain rfl := HandlerPc.read.inj hread
    exact h.busy hbusy hr

theorem Seen.store (h : Seen s) {v : BitVec 32} (hread : s.handler = .read v) (core : Core) :
    Seen { s with
      core := core
      handler := .stored v
      recorded := s.recorded || s.fresh && hasDone v } := by
  have hbusy : s.handler.busy = true := by
    rw [hread]
    rfl
  refine ⟨?_, ?_, ?_, h.begun⟩
  · intro hr
    rcases Bool.or_eq_true_iff.mp hr with hbefore | hnow
    · exact .inl (h.busy hbusy hbefore)
    · obtain ⟨hfresh, hdone⟩ := Bool.and_eq_true_iff.mp hnow
      rcases h.fresh v hread hfresh hdone with hdone' | hlow
      · exact .inl hdone'
      · exact .inr ⟨hlow, rfl⟩
  · simp
  · simp

theorem Seen.ack (h : Seen s) {v : BitVec 32} :
    Seen { s.busWrite ⟨Qemu.regIrqAck, v⟩ with handler := .idle } := by
  refine ⟨?_, ?_, ?_, h.begun⟩
  · intro hr
    rcases h.recorded hr with hdone | ⟨hlow, -⟩
    · exact .inl hdone
    · exact .inr ⟨hlow, rfl⟩
  · simp
  · simp

theorem Seen.step (h : Seen s) (e : Event) : Seen (step s e) := by
  have heff := step_effect s e
  generalize Hw.step s e = s' at heff
  cases heff with
  | skip => exact h
  | begin call => exact h.begin call
  | advance => exact h.advance
  | expire => exact h.expire
  | enter _ hirq => exact h.enter hirq
  | read hentered => exact h.read hentered _
  | store v hread => exact h.store hread _
  | ack => exact h.ack

/-! ## When what was recorded is reported -/

theorem reported_busy {s' : Sys} (h : s'.getStatus = none) : Reported s' := by
  intro status hstatus
  rw [h] at hstatus
  cases hstatus

theorem Reported.frame (h : Reported s) {s' : Sys} (hstatus : s'.getStatus = s.getStatus)
    (hrecorded : s'.recorded = s.recorded) : Reported s' := by
  rw [Reported, hstatus, hrecorded]
  exact h

theorem getStatus_callWrite (s : Sys) (call : Call) (n : Nat) (w : RegWrite) :
    (s.callWrite call n w).getStatus = none := rfl

theorem reported_advance (h : Reported s) : Reported s.advance ↔ NotOvertaken s .advance := by
  unfold Sys.advance NotOvertaken
  split
  · next hcall => exact iff_of_true h (by simp [hcall])
  · next call n hcall =>
    refine iff_of_true ?_ (by simp [hcall])
    split
    · exact reported_busy (getStatus_callWrite s call n _)
    · exact reported_busy rfl
  · next v hcall =>
    rw [hcall]
    constructor
    · intro hreported v' hv' hrecorded
      obtain rfl := CallPc.storing.inj hv'
      exact hreported v rfl hrecorded
    · intro hstored status hstatus hrecorded
      obtain rfl := Option.some.inj hstatus
      exact hstored v rfl hrecorded

/-- The handler does not take back what it recorded. -/
theorem Seen.reported_store (h : Seen s) {v : BitVec 32} (hread : s.handler = .read v) :
    Reported { s with
      core := (protoIrqHandler s.core v).1
      handler := .stored v
      recorded := s.recorded || s.fresh && hasDone v } := by
  intro status hstatus hrecorded
  rcases hcall : s.call with _ | ⟨call, n⟩ | v'
  · simp only [Sys.getStatus, hcall] at hstatus
    obtain rfl := Option.some.inj hstatus
    rcases Bool.or_eq_true_iff.mp hrecorded with hbefore | hnow
    · exact h.current v hread hbefore
    · exact (Bool.and_eq_true_iff.mp hnow).2
  · simp only [Sys.getStatus, hcall] at hstatus
    cases hstatus
  · simp only [Sys.getStatus, hcall] at hstatus
    cases hstatus

theorem reported_begin (s : Sys) (call : Call) : Reported (s.begin call) := by
  apply reported_busy
  cases call <;> rfl

theorem reported_step (h : Reported s) (hseen : Seen s) (e : Event) :
    Reported (step s e) ↔ NotOvertaken s e := by
  by_cases hadvance : e = .advance
  · subst hadvance
    exact reported_advance h
  · have heff := step_effect s e
    refine iff_of_true ?_ ?_
    · generalize step s e = s' at heff
      cases heff with
      | advance => exact absurd rfl hadvance
      | skip => exact h
      | begin call => exact reported_begin s call
      | expire => exact h
      | store v hread => exact hseen.reported_store hread
      | enter | read | ack => exact h.frame rfl rfl
    · cases e with
      | advance => exact absurd rfl hadvance
      | begin | expire | enter | read | store | ack => trivial

end

/-- **A recorded completion is reported until the next call exactly when** no call stores a status
without DONE that the handler has overtaken. -/
theorem done_reported_iff (dmaBuf : Mem) (dmaHandle : BitVec 64) (es : List Event) :
    Always step Reported (ready dmaBuf dmaHandle) es ↔
      Along step NotOvertaken (ready dmaBuf dmaHandle) es := by
  have h0 : Reported (ready dmaBuf dmaHandle) := fun _ _ hrecorded => by cases hrecorded
  rw [always_iff_along, and_iff_right h0]
  exact along_iff (I := fun s => Reported s ∧ Seen s) (fun _ e h => reported_step h.1 h.2 e)
    (fun _ e h hreported => ⟨hreported, h.2.step e⟩) ⟨h0, seen_ready dmaBuf dmaHandle⟩

/-! ## Apart -/

/-- The handler stores no DONE between the read of a call and its store, and none during a reset. -/
def Apart (s : Sys) : Event → Prop
  | .store => ∀ v, s.handler = .read v → s.fresh = true → hasDone v = true →
      (∀ w, s.call ≠ .storing w) ∧ ∀ n, s.call ≠ .writing .reset n
  | _ => True

/-- What a call stores has the DONE that is recorded. The fifth write of a send starts its command. -/
structure Clean (s : Sys) : Prop where
  storing : ∀ v, s.call = .storing v → s.recorded = true → hasDone v = true
  reset : ∀ n, s.call = .writing .reset n → s.recorded = false
  started : ∀ c n, s.call = .writing (.send c) n → 5 ≤ n → s.recorded = true →
    hasDone s.dev.status = true
  fresh : ∀ c n, s.call = .writing (.send c) n → 5 ≤ n → ∀ v, s.handler = .read v →
    s.fresh = true → hasDone v = true → hasDone s.dev.status = true

theorem clean_ready (dmaBuf : Mem) (dmaHandle : BitVec 64) : Clean (ready dmaBuf dmaHandle) where
  storing := fun _ h => by cases h
  reset := fun _ _ => rfl
  started := fun _ _ h => by cases h
  fresh := fun _ _ h => by cases h

section
variable {s : Sys}

/-- A step of the handler or of the device. `hstatus` says that it takes back no DONE. -/
theorem Clean.beside (h : Clean s) {s' : Sys} (hcall : s'.call = s.call)
    (hrecorded : s'.recorded = s.recorded)
    (hstatus : hasDone s.dev.status = true → hasDone s'.dev.status = true)
    (hfresh : ∀ v, s'.handler = .read v → s'.fresh = true → hasDone v = true →
      hasDone s'.dev.status = true ∨ s.handler = .read v ∧ s.fresh = true) : Clean s' where
  storing v hv hr := h.storing v (hcall ▸ hv) (hrecorded ▸ hr)
  reset n hn := hrecorded.trans (h.reset n (hcall ▸ hn))
  started c n hn h5 hr := hstatus (h.started c n (hcall ▸ hn) h5 (hrecorded ▸ hr))
  fresh c n hn h5 v hv hf hd := by
    rcases hfresh v hv hf hd with hdone | ⟨hv', hf'⟩
    · exact hdone
    · exact hstatus (h.fresh c n (hcall ▸ hn) h5 v hv' hf' hd)

theorem clean_begin (s : Sys) (call : Call) : Clean (s.begin call) := by
  cases call with
  | send c =>
    refine ⟨fun _ h => (by cases h), fun _ h => (by cases h), ?_, ?_⟩ <;>
      · rintro _ _ ⟨⟩ h5
        omega
  | reset =>
    exact ⟨fun _ h => (by cases h), fun _ _ => rfl, fun _ _ h => (by cases h), fun _ _ h => (by cases h)⟩

theorem Clean.advance (h : Clean s) : Clean s.advance := by
  unfold Sys.advance
  split
  · exact h
  · next call n hcall =>
    cases call with
    | send c =>
      have hwrites : s.core.writes (.send c) = [_, _, _, _, ⟨regCtrl, ctrlStart⟩] := rfl
      by_cases hn : n < 4
      · -- One of the four before the start.
        have hsome : n < (s.core.writes (.send c)).length := by
          rw [hwrites]
          simp only [List.length_cons, List.length_nil]
          omega
        simp only [List.getElem?_eq_getElem hsome]
        refine ⟨fun _ h => (by cases h), fun _ h => (by cases h), ?_, ?_⟩ <;>
          · rintro _ _ ⟨⟩ h5
            omega
      · obtain rfl | h5 : n = 4 ∨ 5 ≤ n := by omega
        · have hstart : (s.core.writes (.send c))[4]? = some ⟨regCtrl, ctrlStart⟩ := rfl
          simp only [hstart]
          exact ⟨fun _ h => (by cases h), fun _ h => (by cases h), fun _ _ _ _ h => (by cases h),
            fun _ _ _ _ _ _ h => (by cases h)⟩
        · have hnone : (s.core.writes (.send c))[n]? = none := by
            rw [List.getElem?_eq_none_iff, hwrites]
            exact h5
          simp only [hnone]
          refine ⟨?_, fun _ h => (by cases h), fun _ _ h => (by cases h), fun _ _ h => (by cases h)⟩
          rintro _ ⟨⟩ hr
          exact h.started c n hcall h5 hr
    | reset =>
      have hrecorded := h.reset n hcall
      split
      · exact ⟨fun _ h => (by cases h), fun _ _ => hrecorded, fun _ _ h => (by cases h),
          fun _ _ h => (by cases h)⟩
      · exact ⟨fun _ _ hr => absurd (hrecorded.symm.trans hr) Bool.false_ne_true, fun _ h => (by cases h),
          fun _ _ h => (by cases h), fun _ _ h => (by cases h)⟩
  · exact ⟨fun _ h => (by cases h), fun _ h => (by cases h), fun _ _ h => (by cases h),
      fun _ _ h => (by cases h)⟩

theorem Clean.expire (h : Clean s) : Clean { s with dev := timerExpires s.dev } := by
  have hstatus : hasDone s.dev.status = true → hasDone (timerExpires s.dev).status = true := by
    intro hdone
    unfold timerExpires
    split_ifs
    · exact done_complete _
    · exact hdone
  exact h.beside rfl rfl hstatus fun v hv hf _ => .inr ⟨hv, hf⟩

theorem Clean.store (h : Clean s) {v : BitVec 32} (hread : s.handler = .read v)
    (hapart : Apart s .store) (core : Core) :
    Clean { s with
      core := core
      handler := .stored v
      recorded := s.recorded || s.fresh && hasDone v } := by
  refine ⟨fun w hw hr => ?_, fun n hn => ?_, fun c n hn h5 hr => ?_, fun _ _ _ _ _ h => (by cases h)⟩
  · rcases Bool.or_eq_true_iff.mp hr with hbefore | hnow
    · exact h.storing w hw hbefore
    · obtain ⟨hf, hd⟩ := Bool.and_eq_true_iff.mp hnow
      exact absurd hw ((hapart v hread hf hd).1 w)
  · rw [Bool.eq_false_iff]
    intro hr
    rcases Bool.or_eq_true_iff.mp hr with hbefore | hnow
    · exact Bool.false_ne_true ((h.reset n hn).symm.trans hbefore)
    · obtain ⟨hf, hd⟩ := Bool.and_eq_true_iff.mp hnow
      exact (hapart v hread hf hd).2 n hn
  · rcases Bool.or_eq_true_iff.mp hr with hbefore | hnow
    · exact h.started c n hn h5 hbefore
    · obtain ⟨hf, hd⟩ := Bool.and_eq_true_iff.mp hnow
      exact h.fresh c n hn h5 v hread hf hd

theorem Clean.step (h : Clean s) {e : Event} (hapart : Apart s e) : Clean (step s e) := by
  have heff := step_effect s e
  generalize Hw.step s e = s' at heff
  cases heff with
  | skip => exact h
  | begin call => exact clean_begin s call
  | advance => exact h.advance
  | expire => exact h.expire
  | enter => exact h.beside rfl rfl id fun _ hv => by cases hv
  | read => exact h.beside rfl rfl id fun _ hv _ hd => by cases hv; exact .inl hd
  | store v hread => exact h.store hread hapart _
  | ack => exact h.beside rfl rfl id fun _ hv => by cases hv

end

/-- **A handler that keeps apart from the calls overtakes none.** -/
theorem not_overtaken_of_apart (dmaBuf : Mem) (dmaHandle : BitVec 64) {es : List Event}
    (h : Along step Apart (ready dmaBuf dmaHandle) es) :
    Along step NotOvertaken (ready dmaBuf dmaHandle) es := by
  have hclean : Always step Clean (ready dmaBuf dmaHandle) es :=
    Always.of_step (fun _ _ hs he => hs.step he) (clean_ready dmaBuf dmaHandle) h
  refine Along.of_always hclean h fun s e hs _ => ?_
  cases e with
  | advance => exact hs.storing
  | begin | expire | enter | read | store | ack => trivial

/-- The command is done and handled between the read and the store of its own call. -/
theorem done_lost :
    let es : List Event := [.begin (.send ⟨1, 0, Vector.replicate 256 0⟩)] ++
      List.replicate 6 .advance ++ [.expire, .enter, .read, .store, .advance]
    ¬ Always step Reported (ready Mem.zero 0) es ∧
      (run step (ready Mem.zero 0) es).getStatus = some statusReady := by
  intro es
  refine ⟨fun hall => ?_, rfl⟩
  exact absurd (hall.last statusReady rfl rfl) (by decide)

end PcieDriver.Hw
