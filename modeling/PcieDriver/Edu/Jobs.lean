import PcieDriver.Edu.Board

/-!
# What the device has under way

A job runs, is finished, is handled, and is gone. It is in one of these places at a time.
-/

open Base

namespace PcieDriver.Edu

def Board.handled (b : Board) : List Job :=
  match b.handler with
  | some (_, js) => js
  | none => []

/-- The jobs for which the device or the handler has still something to do. -/
def Board.jobs (b : Board) : List Job := b.running ++ (b.finished ++ b.handled)

section
variable {factorial : BitVec 32 → BitVec 32} {b : Board}

theorem handled_eq {stat : BitVec 32} {js : List Job} (hhandler : b.handler = some (stat, js)) :
    b.handled = js := by
  rw [Board.handled, hhandler]

theorem handled_mem_jobs {stat : BitVec 32} {js : List Job} (hhandler : b.handler = some (stat, js))
    {j : Job} (hj : j ∈ js) : j ∈ b.jobs := by
  rw [Board.jobs, handled_eq hhandler]
  exact List.mem_append_right _ (List.mem_append_right _ hj)

/-! ## What a step does to them -/

theorem jobs_begin (src : Source) (w : Work) :
    (b.begin src w).jobs.Perm (⟨b.kicks, src, w⟩ :: b.jobs) := by
  simp only [Board.jobs, Board.begin, Board.handled, List.append_assoc, List.singleton_append]
  exact List.perm_middle

theorem jobs_finish {j : Job} (hj : j ∈ b.running) : (b.finish factorial j).jobs.Perm b.jobs := by
  have hends := finish_ends factorial b j
  have hfinish : (b.finish factorial j).jobs =
      b.running.erase j ++ (b.finished ++ [j] ++ b.handled) := by
    simp only [Board.jobs, Board.handled, hends.running, hends.finished, hends.handler]
  rw [hfinish, Board.jobs, List.perm_iff_count]
  intro k
  have hcount := (List.perm_cons_erase hj).count_eq k
  simp only [List.count_append, List.count_cons, List.count_nil] at hcount ⊢
  omega

theorem jobs_enter (hidle : b.handler = none) (stat : BitVec 32) :
    ({ b with
      irqStat := stat
      handler := some (b.irqStat, b.finished)
      finished := [] } : Board).jobs = b.jobs := by
  simp [Board.jobs, Board.handled, hidle]

theorem kicks_step (factorial : BitVec 32 → BitVec 32) (b : Board) (e : BoardEvent) :
    b.kicks ≤ (boardStep factorial b e).kicks := by
  generalize hb' : b.deviceStep factorial e = b'
  have heff : DeviceEffect factorial b e b' := hb' ▸ device_effect factorial b e
  rw [boardStep, hb']
  cases heff with
  | opened | quiet | entered | posted => exact le_refl _
  | begun => exact Nat.le_succ _
  | finished j hj => exact (finish_ends factorial b j).kicks.ge

/-! ## The invariant -/

structure JobsInv (b : Board) : Prop where
  once : b.jobs.Nodup
  kicked : ∀ j ∈ b.jobs, j.serial < b.kicks

namespace JobsInv

theorem powered (d : EduDev) (fact : BitVec 32) : JobsInv (.powered d fact) where
  once := List.nodup_nil
  kicked := by simp [Board.jobs, Board.powered, Board.handled]

theorem of_perm (h : JobsInv b) {b' : Board} (hperm : b'.jobs.Perm b.jobs)
    (hkicks : b'.kicks = b.kicks) : JobsInv b' where
  once := hperm.nodup_iff.mpr h.once
  kicked := fun j hj => hkicks ▸ h.kicked j (hperm.mem_iff.mp hj)

theorem begin (h : JobsInv b) (src : Source) (w : Work) : JobsInv (b.begin src w) where
  once := by
    refine (jobs_begin src w).nodup_iff.mpr (List.nodup_cons.mpr ⟨fun hmem => ?_, h.once⟩)
    exact lt_irrefl _ (h.kicked _ hmem)
  kicked := by
    intro j hj
    rcases List.mem_cons.mp ((jobs_begin src w).mem_iff.mp hj) with rfl | hj
    · exact Nat.lt_succ_self _
    · exact (h.kicked j hj).trans (Nat.lt_succ_self _)

theorem step (h : JobsInv b) (e : BoardEvent) : JobsInv (boardStep factorial b e) := by
  generalize hb' : b.deviceStep factorial e = b'
  have heff : DeviceEffect factorial b e b' := hb' ▸ device_effect factorial b e
  -- The driver's own part of the step is not on the device.
  suffices hdevice : JobsInv b' by
    rw [boardStep, hb']
    exact ⟨hdevice.once, hdevice.kicked⟩
  cases heff with
  | opened | quiet => exact ⟨h.once, h.kicked⟩
  | begun _ unkicked src w =>
    have h' : JobsInv { b with unkicked := unkicked } := ⟨h.once, h.kicked⟩
    exact h'.begin src w
  | finished j hj =>
    exact h.of_perm (jobs_finish hj) (finish_ends factorial b j).kicks
  | entered hidle hstat =>
    exact h.of_perm (List.Perm.of_eq (jobs_enter hidle _)) rfl
  | posted stat js hhandler =>
    have hsub : List.Sublist (b.running ++ (b.finished ++ [])) b.jobs := by
      rw [Board.jobs]
      exact List.Sublist.append_left (List.Sublist.append_left (List.nil_sublist _) _) _
    exact ⟨h.once.sublist hsub, fun j hj => h.kicked j (hsub.subset hj)⟩

theorem handled_not_running (h : JobsInv b) {stat : BitVec 32} {js : List Job}
    (hhandler : b.handler = some (stat, js)) {j : Job} (hj : j ∈ js) : j ∉ b.running := by
  have honce := h.once
  rw [Board.jobs, handled_eq hhandler, List.nodup_append] at honce
  exact fun hrunning => honce.2.2 j hrunning j (List.mem_append_right _ hj) rfl

end JobsInv

end

end PcieDriver.Edu
