import PcieDriver.Ring.History

/-!
# When to process does not matter

Two callers who send the same commands, and process them at different times, leave the same device
behind once both have processed all of them.
-/

open Base

namespace PcieDriver.Ring

/-- The ioctls send `cs` in order, with any calls of the loop in between. -/
inductive Schedule : List ProtoPcieCommand → List Ioctl → Prop
  | nil : Schedule [] []
  | send {cs : List ProtoPcieCommand} {ios : List Ioctl} (c : ProtoPcieCommand)
      (rest : Schedule cs ios) : Schedule (c :: cs) (.sendCmd true c :: ios)
  | process {cs : List ProtoPcieCommand} {ios : List Ioctl} (rest : Schedule cs ios) :
      Schedule cs (.processPending :: ios)

def NotRefused (s : Sys) (io : Ioctl) : Prop :=
  ∀ copied c, io = .sendCmd copied c → s.reply io = .ok .done

section
variable {l : CmdLedger} {cs : List ProtoPcieCommand} {ios : List Ioctl}

theorem notRefused_iff (c : ProtoPcieCommand) :
    NotRefused (sysOf l) (.sendCmd true c) ↔ l.waiting.length < 64 := by
  constructor
  · intro h
    by_contra hfull
    have hreply := h true c rfl
    rw [reply_send, if_neg hfull] at hreply
    cases hreply
  · rintro hroom copied c' hio
    cases hio
    rw [reply_send, if_pos hroom]

/-- The induction is on the schedule. Processing moves commands within the ledger, and sending adds
one at the end. -/
theorem schedule_all (h : Schedule cs ios) (hno : Along step NotRefused (sysOf l) ios) :
    (run Ledger.next l (ios.map ledgerOp)).all = l.all ++ cs := by
  induction h generalizing l with
  | nil => exact (List.append_nil _).symm
  | send c rest ih =>
    obtain ⟨hsend, hrest⟩ := hno
    rw [step_sysOf] at hrest
    have hadd : (l.next (ledgerOp (.sendCmd true c))).all = l.all ++ [c] :=
      Ledger.add_room ((notRefused_iff c).mp hsend)
    rw [List.map_cons, run_cons, ih hrest, hadd, List.append_assoc, List.singleton_append]
  | process rest ih =>
    obtain ⟨-, hrest⟩ := hno
    rw [step_sysOf] at hrest
    have hfinish : (l.next (ledgerOp .processPending)).all = l.all := l.all_finish
    rw [List.map_cons, run_cons, ih hrest, hfinish]

theorem schedule_taken (h : Schedule cs ios) (hfits : l.waiting.length + cs.length ≤ 64) :
    Along step NotRefused (sysOf l) ios := by
  induction h generalizing l with
  | nil => trivial
  | send c rest ih =>
    rw [List.length_cons] at hfits
    have hroom : l.waiting.length < 64 := by omega
    refine ⟨(notRefused_iff c).mpr hroom, ?_⟩
    rw [step_sysOf]
    apply ih
    rw [ledgerOp, Ledger.next, Ledger.add, dif_pos hroom, List.length_append, List.length_singleton]
    omega
  | process rest ih =>
    have hloop : NotRefused (sysOf l) .processPending := by
      intro copied c hio
      cases hio
    refine ⟨hloop, ?_⟩
    rw [step_sysOf]
    apply ih
    rw [ledgerOp, Ledger.next, Ledger.finish, List.length_nil]
    omega

theorem schedule_ends (hlast : ios.getLast? = some .processPending) :
    ∃ l', run Ledger.next l (ios.map ledgerOp) = Ledger.finish l' := by
  obtain ⟨first, rfl⟩ := List.getLast?_eq_some_iff.mp hlast
  rw [List.map_append, run_append]
  exact ⟨_, rfl⟩

end

/-- **Batching does not matter**: from any state that can be reached, two schedules of the same
commands that are not refused and that end with the loop lead to the same device. -/
theorem schedules_agree (es : List Ioctl) {cs : List ProtoPcieCommand} {ios ios' : List Ioctl}
    (h : Schedule cs ios) (h' : Schedule cs ios')
    (hlast : ios.getLast? = some .processPending) (hlast' : ios'.getLast? = some .processPending)
    (hno : Along step NotRefused (run step probed es) ios)
    (hno' : Along step NotRefused (run step probed es) ios') :
    (run step (run step probed es) ios).dev = (run step (run step probed es) ios').dev := by
  rw [run_sysOf] at hno hno' ⊢
  rw [run_image step_sysOf, run_image step_sysOf]
  have hall := schedule_all h hno
  have hall' := schedule_all h' hno'
  obtain ⟨m, hm⟩ := schedule_ends (l := ledgerAfter es) hlast
  obtain ⟨m', hm'⟩ := schedule_ends (l := ledgerAfter es) hlast'
  rw [hm, Ledger.all_finish] at hall
  rw [hm', Ledger.all_finish] at hall'
  rw [hm, hm', Ledger.finish_congr (hall.trans hall'.symm)]

/-- Two commands from a fresh device, in one batch and one by one. -/
theorem schedules_agree_two :
    let c : ProtoPcieCommand := ⟨1, 3, Vector.replicate _ 7⟩
    let c' : ProtoPcieCommand := ⟨2, 300, Vector.replicate _ 9⟩
    (run step probed [.sendCmd true c, .sendCmd true c', .processPending]).dev =
      (run step probed [.sendCmd true c, .processPending, .sendCmd true c', .processPending]).dev := by
  intro c c'
  have h : Schedule [c, c'] [.sendCmd true c, .sendCmd true c', .processPending] :=
    .send c (.send c' (.process .nil))
  have h' : Schedule [c, c'] [.sendCmd true c, .processPending, .sendCmd true c', .processPending] :=
    .send c (.process (.send c' (.process .nil)))
  have hprobed : run step probed [] = sysOf Ledger.empty := probed_eq
  have hfits : (Ledger.empty : CmdLedger).waiting.length + [c, c'].length ≤ 64 := by decide
  exact schedules_agree [] h h' rfl rfl (hprobed ▸ schedule_taken h hfits)
    (hprobed ▸ schedule_taken h' hfits)

end PcieDriver.Ring
