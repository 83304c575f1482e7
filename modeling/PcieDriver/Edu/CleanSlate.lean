import PcieDriver.Edu.Attribution
import PcieDriver.Edu.Jobs
import PcieDriver.Edu.Queue

/-!
# What an open leaves to come

An open resets the indices and `inflight[]`, and writes no register. The device goes on with what
was kicked before, and its interrupt retires a slot that was claimed since.
-/

open Base

namespace PcieDriver.Edu

/-! ## The property and its condition -/

/-- No entry since the last open was posted by an interrupt for a command kicked before `b₀`. -/
def NoStalePost (b₀ b : Board) : Prop := ∀ js ∈ b.raised, ∀ j ∈ js, b₀.kicks ≤ j.serial

/-- A poll returns the tag and the result of a command that was submitted since `b₀`. -/
def DeliversRecent (factorial : BitVec 32 → BitVec 32) (b₀ b : Board) : Prop :=
  ∀ out, (eduPollCq b.sys.dev).2 = .ok out →
    ∃ c ∈ b.sys.claimed, b₀.sys.calls ≤ c.id ∧
      out.tag = c.req.tag ∧ out.result = expected factorial c.req

/-- The interrupt of a command kicked before `b₀` finds no slot in flight. -/
def StaleFindsNone (b₀ b : Board) : BoardEvent → Prop
  | .irqPost => ∀ stat js, b.handler = some (stat, js) → (∃ j ∈ js, j.serial < b₀.kicks) →
      inUse b.sys.dev.inflight = ∅
  | _ => True

/-! ## Commands since an open -/

structure Since (n : Nat) (s : Sys) : Prop where
  calls : n ≤ s.calls
  claimed : ∀ c ∈ s.claimed, n ≤ c.id

theorem Since.step {n : Nat} {s : Sys} (h : Since n s) (e : Event) : Since n (step s e) := by
  generalize hs' : Edu.step s e = s'
  have heff : Effect s e s' := hs' ▸ step_effect s e
  cases heff with
  | reset => exact ⟨h.calls, by simp [Sys.reset]⟩
  | claim client req _ =>
    refine ⟨h.calls.trans (Nat.le_succ _), ?_⟩
    intro c hc
    simp only [Sys.claim, List.mem_append, List.mem_singleton] at hc
    rcases hc with hc | rfl
    · exact h.claimed c hc
    · exact h.calls
  | post | take | resetStats => exact ⟨h.calls, h.claimed⟩
  | payload _ _ _ _ hsame _ _ | quiet _ _ _ hsame _ _ =>
    exact ⟨h.calls.trans hsame.calls, by rw [hsame.claimed]; exact h.claimed⟩

theorem Since.driverStep {n : Nat} {b : Board} (h : Since n b.sys) (e : BoardEvent) :
    Since n (b.driverStep e) :=
  driverStep_ind h fun e' _ => h.step e'

section
variable {factorial : BitVec 32 → BitVec 32} {b₀ b : Board} {e : BoardEvent}

theorem delivers_of_results (h : OwnerInv b.sys) (hsince : Since b₀.sys.calls b.sys)
    (hb : Results factorial b) : DeliversRecent factorial b₀ b := by
  intro out hout
  have hpoll := poll_head h.ring
  rw [hout, Sys.queue] at hpoll
  cases hunread : b.sys.unread with
  | nil => simp [hunread] at hpoll
  | cons p rest =>
    obtain rfl : out = p.entry.report := by simpa [hunread] using hpoll
    have hmem : p ∈ b.sys.posted := List.mem_of_mem_drop (hunread ▸ List.mem_cons_self)
    obtain ⟨c, hc, htag, hresult⟩ := hb p hmem
    have hclaimed : c ∈ b.sys.claimed := List.mem_of_getElem? hc
    exact ⟨c, hclaimed, hsince.claimed c hclaimed, htag, hresult⟩

/-! ## Stale interrupts -/

theorem noStalePost_step (h : BoardInv factorial b) (hb : NoStalePost b₀ b)
    (he : StaleFindsNone b₀ b e) : NoStalePost b₀ (boardStep factorial b e) := by
  generalize hb' : boardStep factorial b e = b'
  have hposting : Posting b e b' := hb' ▸ posting h e
  intro js hjs
  cases hposting with
  | cleared _ _ _ hraised => simp [hraised] at hjs
  | kept _ _ _ hraised _ =>
    rw [hraised] at hjs
    exact hb js hjs
  | made _ stat js' i hhandler hfirst _ hraised _ =>
    rw [hraised, List.mem_append, List.mem_singleton] at hjs
    rcases hjs with hjs | rfl
    · exact hb js hjs
    · intro j hj
      by_contra hstale
      exact inUse_ne_empty hfirst (he stat js hhandler ⟨j, hj, not_le.mp hstale⟩)

theorem staleFindsNone_of_noStalePost (hb : NoStalePost b₀ (boardStep factorial b e)) :
    StaleFindsNone b₀ b e := by
  cases e with
  | driver | kick | finish | irqEnter => trivial
  | irqPost =>
    rintro stat js hhandler ⟨j, hj, hstale⟩
    rw [← firstInflight_none]
    cases hfirst : firstInflight b.sys.dev with
    | none => rfl
    | some i =>
      have hraised : (boardStep factorial b .irqPost).raised = b.raised ++ [js] := by
        simp [boardStep, Board.deviceStep, Board.postStep, hhandler, hfirst]
      have := hb js (by rw [hraised]; simp) j hj
      omega

/-! ## One command on the device -/

def Board.UnderWay (b : Board) (j : Job) : Prop :=
  j ∈ b.running ∨ j ∈ b.finished ∨ ∃ stat js, b.handler = some (stat, js) ∧ j ∈ js

theorem not_underWay_of_rests (h : b.Rests) (j : Job) : ¬ b.UnderWay j := by
  simp [Board.UnderWay, h.running, h.finished, h.handler]

theorem underWay_step {j : Job} (h : (boardStep factorial b e).UnderWay j) :
    b.UnderWay j ∨ b.kicks ≤ j.serial := by
  generalize hb' : b.deviceStep factorial e = b' at h
  have heff : DeviceEffect factorial b e b' := hb' ▸ device_effect factorial b e
  rw [boardStep, hb'] at h
  cases heff with
  | opened | quiet => exact .inl h
  | begun =>
    rcases h with h | h
    · simp only [Board.begin, List.mem_append, List.mem_singleton] at h
      rcases h with h | rfl
      · exact .inl (.inl h)
      · exact .inr (le_refl _)
    · exact .inl (.inr h)
  | finished k hk =>
    have hjobs : j ∈ b.running.erase k ∨ j ∈ b.finished ++ [k] ∨
        ∃ stat js, b.handler = some (stat, js) ∧ j ∈ js := by
      have hends := finish_ends factorial b k
      simpa only [Board.UnderWay, hends.running, hends.finished, hends.handler] using h
    rw [List.mem_append, List.mem_singleton] at hjobs
    rcases hjobs with h | (h | rfl) | h
    · exact .inl (.inl (List.mem_of_mem_erase h))
    · exact .inl (.inr (.inl h))
    · exact .inl (.inl hk)
    · exact .inl (.inr (.inr h))
  | entered =>
    rcases h with h | h | ⟨_, _, ⟨⟩, h⟩
    · exact .inl (.inl h)
    · exact absurd h List.not_mem_nil
    · exact .inl (.inr (.inl h))
  | posted =>
    rcases h with h | h | ⟨_, _, ⟨⟩, _⟩
    · exact .inl (.inl h)
    · exact .inl (.inr (.inl h))

/-- While a slot is in flight, all that is under way was kicked since `b₀`. -/
structure RecentInv (b₀ b : Board) : Prop where
  kicks : b₀.kicks ≤ b.kicks
  recent : inUse b.sys.dev.inflight ≠ ∅ → ∀ j, b.UnderWay j → b₀.kicks ≤ j.serial

theorem RecentInv.step (h : RecentInv b₀ b) (he : Alone b e) :
    RecentInv b₀ (boardStep factorial b e) := by
  refine ⟨h.kicks.trans (kicks_step factorial b e), fun huse j hj => ?_⟩
  rcases underWay_step hj with hbefore | hnew
  · refine h.recent (fun hnone => ?_) j hbefore
    by_cases hsubmit : ∃ client req, e = .driver (.submit client req)
    · obtain ⟨client, req, rfl⟩ := hsubmit
      exact not_underWay_of_rests he.2 j hbefore
    · exact huse (none_inflight_seen hnone fun client req heq => hsubmit ⟨client, req, heq⟩)
  · exact h.kicks.trans hnew

theorem staleFindsNone_of_recent (h : RecentInv b₀ b) : StaleFindsNone b₀ b e := by
  cases e with
  | driver | kick | finish | irqEnter => trivial
  | irqPost =>
    rintro stat js hhandler ⟨j, hj, hstale⟩
    by_contra huse
    exact absurd (h.recent huse j (.inr (.inr ⟨stat, js, hhandler, hj⟩))) (not_le.mpr hstale)

theorem stale_along_alone {b₁ : Board} (h : RecentInv b₀ b₁) {evs : List BoardEvent}
    (hevs : Along (boardStep factorial) Alone b₁ evs) :
    Along (boardStep factorial) (StaleFindsNone b₀) b₁ evs := by
  have hall : Always (boardStep factorial) (RecentInv b₀) b₁ evs :=
    Always.of_step (fun _ _ h he => h.step he) h hevs
  exact Along.of_always hall hevs fun _ _ h _ => staleFindsNone_of_recent h

end

/-- **An open gives a clean slate** exactly if no interrupt for an earlier command finds a slot in
flight. What is delivered is right if it is still in `REG_FACT` when it is read. Both are so if no
submit is under way at the open, and the commands after it come one at a time. -/
theorem open_clean_slate (factorial : BitVec 32 → BitVec 32) (d : EduDev) (fact : BitVec 32)
    (before : List BoardEvent) (client : Nat) (after : List BoardEvent) :
    let b₀ := run (boardStep factorial) (.powered d fact) before
    let b₁ := boardStep factorial b₀ (.driver (.open client))
    (Always (boardStep factorial) (NoStalePost b₀) b₁ after ↔
        Along (boardStep factorial) (StaleFindsNone b₀) b₁ after) ∧
      (Along (boardStep factorial) ResultFresh b₁ after →
        Always (boardStep factorial) (DeliversRecent factorial b₀) b₁ after) ∧
      (b₀.unkicked = [] → Along (boardStep factorial) Alone b₁ after →
        Along (boardStep factorial) (StaleFindsNone b₀) b₁ after ∧
        Along (boardStep factorial) ResultFresh b₁ after) := by
  intro b₀ b₁
  have hb₀ : BoardInv factorial b₀ := .reachable d fact before
  have hb₁ : BoardInv factorial b₁ := hb₀.step _
  have hstale : NoStalePost b₀ b₁ := by
    intro js hjs
    exact absurd hjs List.not_mem_nil
  have hsince : Since b₀.sys.calls b₁.sys := ⟨le_refl _, fun c hc => absurd hc List.not_mem_nil⟩
  have hintact : Intact b₁.sys ∧ Echoes b₁.sys :=
    ⟨fun i hi => absurd rfl hi, fun p hp => absurd hp List.not_mem_nil⟩
  have hresults : Results factorial b₁ := fun p hp => absurd hp List.not_mem_nil
  refine ⟨⟨fun hall => ?_, fun hcond => ?_⟩, fun hcond => ?_, fun hkicked hcond => ?_⟩
  · exact Along.of_always hall hall.steps fun b e _ hb => staleFindsNone_of_noStalePost hb.2
  · have hboth : Always (boardStep factorial) (fun b => BoardInv factorial b ∧ NoStalePost b₀ b)
        b₁ after :=
      Always.of_step (fun _ e h he => ⟨h.1.step e, noStalePost_step h.1 h.2 he⟩) ⟨hb₁, hstale⟩ hcond
    exact hboth.mono fun _ h => h.2
  · have hboth : Always (boardStep factorial)
        (fun b => (BoardInv factorial b ∧ Since b₀.sys.calls b.sys) ∧
          (Intact b.sys ∧ Echoes b.sys) ∧ Results factorial b) b₁ after :=
      Always.of_step
        (fun _ e h he => ⟨⟨h.1.1.step e, h.1.2.driverStep e⟩, intact_driverStep h.2.1 he.spares,
          results_step h.1.1 h.2.1.1 h.2.2 he⟩)
        ⟨⟨hb₁, hsince⟩, hintact, hresults⟩ hcond
    exact hboth.mono fun _ h => delivers_of_results h.1.1.owner h.1.2 h.2.2
  · have halone : AloneInv b₁ := .inl ⟨inUse_open b₀.sys.dev, hkicked⟩
    have hrecent : RecentInv b₀ b₁ := ⟨le_refl _, fun huse => absurd (inUse_open b₀.sys.dev) huse⟩
    exact ⟨stale_along_alone hrecent hcond, (reported_and_fresh hb₁ halone hcond).2⟩

/-- The interrupt of the earlier command comes before the first submit. -/
theorem open_clean_slate_after_wait :
    let old : Cmd := ⟨0, 0, ⟨1, eduOpFactorial, 5⟩⟩
    let new : Cmd := ⟨1, 0, ⟨2, eduOpFactorial, 3⟩⟩
    let b₀ := run (boardStep factorial32) (.powered freshDev 0)
      [.driver (.submit 0 old.req), .kick old]
    let b₁ := boardStep factorial32 b₀ (.driver (.open 0))
    let after : List BoardEvent := [.finish ⟨0, .ring old, .factorial 5⟩, .irqEnter, .irqPost,
      .driver (.submit 0 new.req), .kick new, .finish ⟨1, .ring new, .factorial 3⟩, .irqEnter,
      .irqPost]
    Along (boardStep factorial32) Alone b₁ after ∧
      Along (boardStep factorial32) (StaleFindsNone b₀) b₁ after ∧
      Along (boardStep factorial32) ResultFresh b₁ after ∧
      Always (boardStep factorial32) (NoStalePost b₀) b₁ after ∧
      Always (boardStep factorial32) (DeliversRecent factorial32 b₀) b₁ after ∧
      (eduPollCq (run (boardStep factorial32) b₁ after).sys.dev).2 = .ok ⟨2, 0, 6⟩ := by
  intro old new b₀ b₁ after
  have halone : Along (boardStep factorial32) Alone b₁ after :=
    ⟨trivial, trivial, trivial, ⟨by decide, by decide, by decide, by decide, by decide, by decide⟩,
      trivial, trivial, trivial, trivial, trivial⟩
  obtain ⟨hstale, hdelivers, hconds⟩ := open_clean_slate factorial32 freshDev 0
    [.driver (.submit 0 old.req), .kick old] 0 after
  obtain ⟨hnone, hfresh⟩ := hconds rfl halone
  exact ⟨halone, hnone, hfresh, hstale.mpr hnone, hdelivers hfresh, by decide⟩

/-- A factorial of 5 is on the device when the ring is opened again. Its interrupt completes the
next submit, with 120 for a factorial of 3. -/
theorem stale_interrupt_after_open :
    let old : Cmd := ⟨0, 0, ⟨1, eduOpFactorial, 5⟩⟩
    let new : Cmd := ⟨1, 0, ⟨2, eduOpFactorial, 3⟩⟩
    let b₀ := run (boardStep factorial32) (.powered freshDev 0)
      [.driver (.submit 0 old.req), .kick old]
    let b := run (boardStep factorial32) b₀
      [.driver (.open 0), .driver (.submit 0 new.req), .kick new,
        .finish ⟨0, .ring old, .factorial 5⟩, .irqEnter, .irqPost]
    ¬ NoStalePost b₀ b ∧ ¬ DeliversRecent factorial32 b₀ b ∧
      (eduPollCq b.sys.dev).2 = .ok ⟨2, 0, 120⟩ := by
  intro old new b₀ b
  have hraised : b.raised = [[⟨0, .ring old, .factorial 5⟩]] := by decide
  have hclaimed : b.sys.claimed = [new] := by decide
  have hpoll : (eduPollCq b.sys.dev).2 = .ok ⟨2, 0, 120⟩ := by decide
  refine ⟨fun h => ?_, fun h => ?_, hpoll⟩
  · have := h _ (by rw [hraised]; exact List.mem_singleton_self _) _ (List.mem_singleton_self _)
    exact absurd this (by decide)
  · obtain ⟨c, hc, -, -, hresult⟩ := h _ hpoll
    obtain rfl : c = new := by simpa [hclaimed] using hc
    exact absurd hresult (by decide)

end PcieDriver.Edu
