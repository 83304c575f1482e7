import PcieDriver.Edu.Attribution
import PcieDriver.Edu.Handler

/-!
# Interrupts that report several commands

The handler acknowledges every bit that it read, and completes one slot. The acknowledgement clears a
bit for all commands that raised it by then. If these are two, nothing reports the other one again.
-/

open Base

namespace PcieDriver.Edu

/-! ## The property and its condition -/

def FineEvent.RingRun : FineEvent → Prop
  | .driver (.submit _ _) | .driver (.pollCq _) => True
  | .driver _ => False
  | .kick _ | .finish _ | .irqRead | .irqAck | .irqPost | .irqComplete => True

instance (e : FineEvent) : Decidable e.RingRun :=
  match e with
  | .driver (.submit _ _) | .driver (.pollCq _) | .kick _ | .finish _ | .irqRead | .irqAck | .irqPost
  | .irqComplete => .isTrue trivial
  | .driver (.open _) | .driver (.irq _ _) | .driver (.factorial _) | .driver .dmaTest
  | .driver .arm | .driver (.wake _) | .driver .timeout | .driver (.dmaWrite _)
  | .driver (.setEventfd _) | .driver .resetStats => .isFalse id

def Board.HasEntry (b : Board) (c : Cmd) : Prop :=
  ∃ p ∈ b.sys.posted, b.sys.claimed[p.num]? = some c

/-- After the scan, every ring command whose bit the handler had acknowledged has its entry. -/
def DeliversReported (factorial : BitVec 32 → BitVec 32) (f : FineBoard) : FineEvent → Prop
  | .irqPost => ∀ stat js, f.board.handler = some (stat, js) → ∀ j ∈ js, ∀ c, j.source = .ring c →
      (fineStep factorial f .irqPost).board.HasEntry c
  | _ => True

/-- The acknowledgement cleared the bit of one command, and it is the one in the lowest slot in
flight. -/
def OneReported (f : FineBoard) : FineEvent → Prop
  | .irqPost => ∀ stat js, f.board.handler = some (stat, js) →
      ∃ j c, js = [j] ∧ j.source = .ring c ∧ f.board.sys.Lowest c
  | _ => True

theorem one_reported {f : FineBoard} {stat : BitVec 32} {j : Job} {c : Cmd}
    (hhandler : f.board.handler = some (stat, [j])) (hsource : j.source = .ring c)
    (hc : f.board.sys.Lowest c) : OneReported f .irqPost := by
  intro stat' js hhandler'
  obtain ⟨-, rfl⟩ := Prod.mk.inj (Option.some.inj (hhandler.symm.trans hhandler'))
  exact ⟨j, c, rfl, hsource, hc⟩

/-! ## What is still to come -/

/-- For whom the driver, the device or the handler has still something to do. -/
def Board.pending (b : Board) : List Source := b.unkicked.map .ring ++ b.jobs.map Job.source

section
variable {factorial : BitVec 32 → BitVec 32} {b : Board} {f : FineBoard}

theorem pending_kick {c : Cmd} (hc : c ∈ b.unkicked) (w : Work) :
    (({ b with unkicked := b.unkicked.erase c } : Board).begin (.ring c) w).pending.Perm
      b.pending := by
  have hjobs := (jobs_begin (b := { b with unkicked := b.unkicked.erase c }) (.ring c) w).map
    Job.source
  have hunkicked := ((List.perm_cons_erase hc).map Source.ring).symm
  exact (hjobs.append_left _).trans
    (List.perm_middle.trans (hunkicked.append_right (b.jobs.map Job.source)))

theorem pending_finish {j : Job} (hj : j ∈ b.running) :
    (b.finish factorial j).pending.Perm b.pending := by
  rw [Board.pending, (finish_ends factorial b j).unkicked]
  exact ((jobs_finish hj).map Job.source).append_left _

/-! ## Bits and jobs -/

/-- Each bit of `stat` is that of a finished job. -/
def Board.Raised (b : Board) (stat : BitVec 32) : Prop :=
  ∀ k, stat.getLsbD k = true → ∃ j ∈ b.finished, j.work.irqBit.getLsbD k = true

theorem irqBit_twoPow (w : Work) : ∃ n, w.irqBit = BitVec.twoPow 32 n := by
  cases w with
  | factorial => exact ⟨0, rfl⟩
  | dma => exact ⟨8, rfl⟩

/-- A job raises one bit, which is acknowledged or not. -/
theorem reportedBy_iff {j : Job} {k : Nat} (hk : j.work.irqBit.getLsbD k = true) (stat : BitVec 32) :
    j.ReportedBy stat ↔ stat.getLsbD k = true := by
  obtain ⟨n, hn⟩ := irqBit_twoPow j.work
  have hne := irqBit_ne_zero j.work
  rw [hn, BitVec.getLsbD_twoPow, Bool.and_eq_true, decide_eq_true_eq, decide_eq_true_eq] at hk
  obtain ⟨-, rfl⟩ := hk
  rw [Job.ReportedBy, hn, BitVec.twoPow_and]
  by_cases hbit : stat.getLsbD n = true
  · rw [if_pos hbit]
    exact iff_of_true (hn ▸ hne) hbit
  · rw [if_neg hbit]
    exact iff_of_false (fun h => h rfl) hbit

theorem exists_bit {stat : BitVec 32} (hstat : stat ≠ 0) : ∃ k, stat.getLsbD k = true := by
  by_contra hnone
  rw [not_exists] at hnone
  refine hstat (BitVec.eq_of_getLsbD_eq fun k _ => ?_)
  exact (Bool.eq_false_of_not_eq_true (hnone k)).trans BitVec.getLsbD_zero.symm

/-! ## The invariant -/

structure ReportInv (f : FineBoard) : Prop where
  owner : OwnerInv f.board.sys
  once : f.board.pending.Nodup
  known : ∀ src ∈ f.board.pending, ∃ c, src = .ring c ∧ c.id < f.board.sys.calls
  apart : ∀ p ∈ f.board.sys.posted, ∀ c, f.board.sys.claimed[p.num]? = some c →
    .ring c ∉ f.board.pending
  raised : f.board.Raised f.board.irqStat
  status : ∀ stat, f.status = some stat →
    stat ≠ 0 ∧ f.board.Raised stat ∧ f.board.handler = none
  handled : ∀ stat js, f.board.handler = some (stat, js) → js ≠ []

namespace ReportInv

theorem powered (d : EduDev) (fact : BitVec 32) : ReportInv (.powered d fact) where
  owner := .start d
  once := List.nodup_nil
  known := by simp [Board.pending, Board.jobs, FineBoard.powered, Board.powered, Board.handled]
  apart := by simp [FineBoard.powered, Board.powered, start]
  raised := fun k hk => absurd (BitVec.getLsbD_zero.symm.trans hk) Bool.false_ne_true
  status := fun stat h => absurd h (Option.some_ne_none stat).symm
  handled := fun stat js h => absurd h (Option.some_ne_none (stat, js)).symm

/-- What is pending moves on, and the driver leaves the rings alone. -/
theorem moved (h : ReportInv f) {f' : FineBoard} (howner : OwnerInv f'.board.sys)
    (hsame : SameRing f.board.sys f'.board.sys) (hperm : f'.board.pending.Perm f.board.pending)
    (hraised : f'.board.Raised f'.board.irqStat)
    (hstatus : ∀ stat, f'.status = some stat →
      stat ≠ 0 ∧ f'.board.Raised stat ∧ f'.board.handler = none)
    (hhandled : ∀ stat js, f'.board.handler = some (stat, js) → js ≠ []) : ReportInv f' where
  owner := howner
  once := hperm.nodup_iff.mpr h.once
  known := fun src hsrc => by
    obtain ⟨c, hc, hid⟩ := h.known src (hperm.mem_iff.mp hsrc)
    exact ⟨c, hc, hid.trans_le hsame.calls⟩
  apart := fun p hp c hc hmem => by
    rw [hsame.posted] at hp
    rw [hsame.claimed] at hc
    exact h.apart p hp c hc (hperm.mem_iff.mp hmem)
  raised := hraised
  status := hstatus
  handled := hhandled

theorem kick (h : ReportInv f) (c : Cmd) : ReportInv (fineStep factorial f (.kick c)) := by
  have hboard : fineStep factorial f (.kick c) =
      { f with board := { f.board.kickStep c with sys := f.board.sys } } := rfl
  rw [hboard]
  rcases kickStep_cases f.board c with hstay | ⟨hmem, hbegin⟩
  · rw [hstay]
    exact h
  · rw [hbegin]
    exact h.moved h.owner {} (pending_kick hmem _) h.raised h.status h.handled

theorem finish (h : ReportInv f) (j : Job) : ReportInv (fineStep factorial f (.finish j)) := by
  by_cases hj : j ∈ f.board.running
  · have hboard : fineStep factorial f (.finish j) =
        { f with board := { f.board.finish factorial j with sys := f.board.sys } } := by
      simp only [fineStep, boardStep, Board.deviceStep, if_pos hj]
      rfl
    obtain ⟨-, -, -, -, hfinished, hstat, hhandler, -⟩ := finish_ends factorial f.board j
    have hold {stat : BitVec 32} (hraised : f.board.Raised stat) :
        ({ f.board.finish factorial j with sys := f.board.sys } : Board).Raised stat := by
      intro k hk
      obtain ⟨i, hi, hbit⟩ := hraised k hk
      exact ⟨i, hfinished ▸ List.mem_append_left _ hi, hbit⟩
    rw [hboard]
    refine h.moved h.owner {} (pending_finish hj) ?_ ?_ ?_
    · intro k hk
      rw [hstat, BitVec.getLsbD_or, Bool.or_eq_true] at hk
      rcases hk with hk | hk
      · exact hold h.raised k hk
      · exact ⟨j, hfinished ▸ List.mem_append_right _ (List.mem_singleton_self j), hk⟩
    · intro stat hread
      obtain ⟨hne, hraised, hidle⟩ := h.status stat hread
      exact ⟨hne, hold hraised, hhandler.trans hidle⟩
    · intro stat js hsome
      exact h.handled stat js (hhandler ▸ hsome)
  · have hboard : fineStep factorial f (.finish j) = f := by
      rw [fineStep, finish_idle hj]
    rw [hboard]
    exact h

theorem read (h : ReportInv f) : ReportInv f.readStep := by
  unfold FineBoard.readStep
  split_ifs with hready
  · refine ⟨h.owner, h.once, h.known, h.apart, h.raised, ?_, h.handled⟩
    rintro _ ⟨⟩
    exact ⟨hready.2.2.2, h.raised, hready.2.1⟩
  · exact h

theorem pending_ack {stat : BitVec 32} (hidle : f.board.handler = none) (dev : EduDev)
    (bits : BitVec 32) :
    ({ f.board with
      sys := { f.board.sys with dev := dev }
      irqStat := bits
      handler := some (stat, f.board.finished.filter fun j => j.ReportedBy stat)
      finished := f.board.finished.filter fun j => ¬ j.ReportedBy stat } : Board).pending.Perm
        f.board.pending := by
  have hsplit := List.filter_append_perm (fun j : Job => decide (j.ReportedBy stat)) f.board.finished
  refine List.Perm.append_left _ (List.Perm.map _ (List.Perm.append_left _ ?_))
  simp only [Board.handled, hidle, List.append_nil, decide_not]
  exact List.perm_append_comm.trans hsplit

theorem ack (h : ReportInv f) : ReportInv f.ackStep := by
  cases hstatus : f.status with
  | none =>
    have hstay : f.ackStep = f := by simp only [FineBoard.ackStep, hstatus]
    rw [hstay]
    exact h
  | some stat =>
    obtain ⟨hne, hraised, hidle⟩ := h.status stat hstatus
    rw [ackStep_some hstatus]
    refine h.moved (h.owner.same {} (h.owner.ring.same {} fun _ => rfl)) {} (pending_ack hidle _ _) ?_
      ?_ ?_
    · intro k hk
      rw [BitVec.getLsbD_and, Bool.and_eq_true, BitVec.getLsbD_not, Bool.and_eq_true,
        Bool.not_eq_true'] at hk
      obtain ⟨j, hj, hbit⟩ := h.raised k hk.1
      refine ⟨j, List.mem_filter.mpr ⟨hj, ?_⟩, hbit⟩
      rw [decide_eq_true_iff, reportedBy_iff hbit, hk.2.2]
      exact Bool.false_ne_true
    · rintro _ ⟨⟩
    · rintro _ _ ⟨⟩
      obtain ⟨k, hk⟩ := exists_bit hne
      obtain ⟨j, hj, hbit⟩ := hraised k hk
      have hreported := decide_eq_true ((reportedBy_iff hbit stat).mpr hk)
      exact List.ne_nil_of_mem (List.mem_filter.mpr ⟨hj, hreported⟩)

theorem complete (h : ReportInv f) : ReportInv f.completeStep := by
  unfold FineBoard.completeStep
  split_ifs
  · exact h.moved (h.owner.same {} (h.owner.ring.same {} fun _ => rfl)) {} (.refl _) h.raised h.status
      h.handled
  · exact h

/-! ### The scan -/

theorem source_mem_pending {stat : BitVec 32} {js : List Job}
    (hhandler : f.board.handler = some (stat, js)) {j : Job} (hj : j ∈ js) :
    j.source ∈ f.board.pending :=
  List.mem_append_right _ (List.mem_map_of_mem (handled_mem_jobs hhandler hj))

theorem unposted (h : ReportInv f) {stat : BitVec 32} {js : List Job}
    (hhandler : f.board.handler = some (stat, js)) {j : Job} (hj : j ∈ js) {c : Cmd}
    (hsource : j.source = .ring c) : ¬ f.board.HasEntry c := by
  rintro ⟨p, hp, hc⟩
  exact h.apart p hp c hc (hsource ▸ source_mem_pending hhandler hj)

theorem delivers_of_one {e : FineEvent} (he : OneReported f e) : DeliversReported factorial f e := by
  cases e with
  | driver | kick | finish | irqRead | irqAck | irqComplete => trivial
  | irqPost =>
    intro stat js hhandler j hj c hsource
    obtain ⟨j', c', rfl, hsource', i, ⟨hi, hc⟩, hmin⟩ := he stat js hhandler
    obtain rfl := List.mem_singleton.mp hj
    obtain rfl : c' = c := Source.ring.inj (hsource'.symm.trans hsource)
    have hsys := post_sys factorial hhandler
    rw [scan_some (firstInflight_some.mpr ⟨hi, hmin⟩)] at hsys
    refine ⟨f.board.postOf i, ?_, ?_⟩
    · rw [hsys]
      exact List.mem_append_right _ (List.mem_singleton_self _)
    · rw [hsys]
      exact hc

theorem one_of_delivers (h : ReportInv f) {e : FineEvent} (he : DeliversReported factorial f e) :
    OneReported f e := by
  cases e with
  | driver | kick | finish | irqRead | irqAck | irqComplete => trivial
  | irqPost =>
    intro stat js hhandler
    have hsys := post_sys factorial hhandler
    -- A command that gets its entry only now is the one in the lowest slot in flight.
    have hlowest : ∀ j ∈ js, ∃ c, j.source = .ring c ∧ f.board.sys.Lowest c := by
      intro j hj
      obtain ⟨c, hsource, -⟩ := h.known j.source (source_mem_pending hhandler hj)
      refine ⟨c, hsource, ?_⟩
      obtain ⟨p, hp, hc⟩ := he stat js hhandler j hj c hsource
      have hnone := h.unposted hhandler hj hsource
      cases hfirst : firstInflight f.board.sys.dev with
      | none =>
        rw [hsys, scan_none hfirst] at hp hc
        exact absurd ⟨p, hp, hc⟩ hnone
      | some i =>
        rw [hsys, scan_some hfirst] at hp hc
        rcases List.mem_append.mp hp with hp | hp
        · exact absurd ⟨p, hp, hc⟩ hnone
        · obtain rfl := List.mem_singleton.mp hp
          exact (lowest_iff hfirst).mpr hc
    obtain ⟨j, rest, rfl⟩ := List.exists_cons_of_ne_nil (h.handled stat js hhandler)
    obtain ⟨c, hsource, hc⟩ := hlowest j List.mem_cons_self
    refine ⟨j, c, ?_, hsource, hc⟩
    rw [List.cons.injEq, List.eq_nil_iff_forall_not_mem]
    refine ⟨rfl, fun j' hj' => ?_⟩
    obtain ⟨c', hsource', hc'⟩ := hlowest j' (List.mem_cons_of_mem _ hj')
    have heq : j.source = j'.source := by rw [hsource, hsource', hc.unique hc']
    have honce := h.once
    rw [Board.pending, Board.jobs, handled_eq hhandler] at honce
    simp only [List.map_append, List.map_cons, List.nodup_append, List.nodup_cons] at honce
    exact honce.2.1.2.1.2.1.1 (heq ▸ List.mem_map_of_mem hj')

theorem post (h : ReportInv f) (he : OneReported f .irqPost) :
    ReportInv (fineStep factorial f .irqPost) := by
  cases hhandler : f.board.handler with
  | none =>
    have hstay : fineStep factorial f .irqPost = f := by
      simp only [fineStep, FineBoard.postStep, hhandler]
    rw [hstay]
    exact h
  | some handled =>
    obtain ⟨stat, js⟩ := handled
    obtain ⟨j, c, rfl, hsource, i, ⟨hi, hc⟩, hmin⟩ := he stat js hhandler
    have hsys := post_sys factorial hhandler
    have howner := h.owner.scan f.board.regFact
    rw [scan_some (firstInflight_some.mpr ⟨hi, hmin⟩)] at hsys howner
    have hpending :
        f.board.pending = (fineStep factorial f .irqPost).board.pending ++ [.ring c] := by
      simp [Board.pending, Board.jobs, ← hsource, fineStep, FineBoard.postStep, Board.postStep,
        hhandler, Board.handled]
    have hdevice : (fineStep factorial f .irqPost).board.irqStat = f.board.irqStat ∧
        (fineStep factorial f .irqPost).board.finished = f.board.finished ∧
        (fineStep factorial f .irqPost).board.handler = none ∧
        (fineStep factorial f .irqPost).status = f.status := by
      simp [fineStep, FineBoard.postStep, Board.postStep, hhandler]
    obtain ⟨hstat, hfinished, hnone, hstatus⟩ := hdevice
    have honce := h.once
    rw [hpending, List.nodup_append] at honce
    refine ⟨hsys ▸ howner, honce.1, ?_, ?_, ?_, ?_, ?_⟩
    · intro src hsrc
      rw [hsys]
      exact h.known src (hpending ▸ List.mem_append_left _ hsrc)
    · intro p hp c' hc' hmem
      rw [hsys] at hp hc'
      rcases List.mem_append.mp hp with hp | hp
      · exact h.apart p hp c' hc' (hpending ▸ List.mem_append_left _ hmem)
      · obtain rfl := List.mem_singleton.mp hp
        obtain rfl : c = c' := Option.some.inj (hc.symm.trans hc')
        exact honce.2.2 _ hmem _ (List.mem_singleton_self _) rfl
    · rw [Board.Raised, hstat, hfinished]
      exact h.raised
    · -- A handler that scans has acknowledged what it read.
      intro stat' hread
      rw [hstatus] at hread
      exact absurd ((h.status stat' hread).2.2.symm.trans hhandler) (Option.some_ne_none _).symm
    · intro stat' js hsome
      exact absurd (hnone.symm.trans hsome) (Option.some_ne_none _).symm

/-! ### Submits and polls -/

theorem claimed_submit {s : Sys} (hinv : OwnerInv s) {p : Post} (hp : p ∈ s.posted) {client : Nat}
    {req : EduSubmitReq} {c : Cmd}
    (hc : (step s (.submit client req)).claimed[p.num]? = some c) : s.claimed[p.num]? = some c := by
  cases hfull : ringFull s.dev.sqTail s.dev.cqHead with
  | true => rwa [step_submit_full hfull] at hc
  | false =>
    rw [step_submit_claims hfull, Sys.claim] at hc
    rwa [List.getElem?_append_left (hinv.posted_lt p hp)] at hc

theorem calls_submit (s : Sys) (client : Nat) (req : EduSubmitReq) :
    (step s (.submit client req)).calls = s.calls + 1 := by
  simp only [step, Sys.submitStep]
  split_ifs <;> rfl

theorem fresh_submit (h : ReportInv f) (client : Nat) (req : EduSubmitReq) :
    Source.ring ⟨f.board.sys.calls, client, req⟩ ∉ f.board.pending := by
  intro hmem
  obtain ⟨c, hc, hid⟩ := h.known _ hmem
  obtain rfl := Source.ring.inj hc
  exact lt_irrefl _ hid

theorem pending_submit (b : Board) (c : Cmd) (s : Sys) :
    ({ b with unkicked := b.unkicked ++ [c], sys := s } : Board).pending.Perm
      (.ring c :: b.pending) := by
  simp only [Board.pending, List.map_append, List.map_cons, List.map_nil, List.append_assoc,
    List.singleton_append]
  exact List.perm_middle

theorem known_submit (h : ReportInv f) (client : Nat) (req : EduSubmitReq) {src : Source}
    (hsrc : src ∈ f.board.pending) :
    ∃ c, src = .ring c ∧ c.id < (Edu.step f.board.sys (.submit client req)).calls := by
  obtain ⟨c, hc, hid⟩ := h.known src hsrc
  exact ⟨c, hc, by rw [calls_submit]; omega⟩

theorem submit (h : ReportInv f) (client : Nat) (req : EduSubmitReq) :
    ReportInv (fineStep factorial f (.driver (.submit client req))) := by
  have hboard : fineStep factorial f (.driver (.submit client req)) =
      { f with board := { f.board.submitStep client req with
          sys := Edu.step f.board.sys (.submit client req) } } := rfl
  have howner := h.owner.step (.submit client req)
  have hposted : (Edu.step f.board.sys (.submit client req)).posted = f.board.sys.posted :=
    posted_of_silent trivial
  rw [hboard]
  unfold Board.submitStep
  split_ifs with hok
  · have hperm := pending_submit f.board ⟨f.board.sys.calls, client, req⟩
      (Edu.step f.board.sys (.submit client req))
    have honce := List.nodup_cons.mpr ⟨h.fresh_submit client req, h.once⟩
    refine ⟨howner, hperm.nodup_iff.mpr honce, fun src hsrc => ?_, fun p hp c hc hmem => ?_, h.raised,
      h.status, h.handled⟩
    · rcases List.mem_cons.mp (hperm.mem_iff.mp hsrc) with rfl | hsrc
      · exact ⟨_, rfl, calls_submit f.board.sys client req ▸ Nat.lt_succ_self _⟩
      · exact h.known_submit client req hsrc
    · rw [hposted] at hp
      have hc' := claimed_submit h.owner hp hc
      rcases List.mem_cons.mp (hperm.mem_iff.mp hmem) with hnew | hold
      · have hid := h.owner.id_lt c (List.mem_of_getElem? hc')
        rw [Source.ring.inj hnew] at hid
        exact lt_irrefl _ hid
      · exact h.apart p hp c hc' hold
  · refine ⟨howner, h.once, fun src hsrc => h.known_submit client req hsrc, fun p hp c hc => ?_,
      h.raised, h.status, h.handled⟩
    rw [hposted] at hp
    exact h.apart p hp c (claimed_submit h.owner hp hc)

theorem poll (h : ReportInv f) (client : Nat) :
    ReportInv (fineStep factorial f (.driver (.pollCq client))) := by
  have hboard : fineStep factorial f (.driver (.pollCq client)) =
      { f with board := { f.board with sys := Edu.step f.board.sys (.pollCq client) } } := rfl
  have howner := h.owner.step (.pollCq client)
  rw [hboard]
  by_cases hempty : f.board.sys.dev.cqHead = f.board.sys.dev.cqTail
  · rw [step_poll_empty hempty]
    exact h
  · rw [step_poll_takes hempty] at howner ⊢
    exact ⟨howner, h.once, h.known, h.apart, h.raised, h.status, h.handled⟩

theorem step (h : ReportInv f) {e : FineEvent} (hrun : e.RingRun) (he : OneReported f e) :
    ReportInv (fineStep factorial f e) := by
  cases e with
  | driver e =>
    cases e with
    | submit client req => exact h.submit client req
    | pollCq client => exact h.poll client
    | _ => exact absurd hrun id
  | kick c => exact h.kick c
  | finish j => exact h.finish j
  | irqRead => exact h.read
  | irqAck => exact h.ack
  | irqPost => exact h.post he
  | irqComplete => exact h.complete

end ReportInv

end

/-- **No acknowledged command is left without its entry** in a run exactly if every acknowledgement
clears the bit of one command, and that one is in the lowest slot in flight at the scan. -/
theorem acknowledged_delivered_iff (factorial : BitVec 32 → BitVec 32) (d : EduDev) (fact : BitVec 32)
    (evs : List FineEvent) (h : ∀ e ∈ evs, e.RingRun) :
    Along (fineStep factorial) (DeliversReported factorial) (.powered d fact) evs ↔
      Along (fineStep factorial) OneReported (.powered d fact) evs := by
  have hrun : Along (fineStep factorial) (fun _ e => e.RingRun) (.powered d fact) evs :=
    along_of_forall fun _ e he => h e he
  constructor
  · intro hdelivers
    have hinv : Always (fineStep factorial) ReportInv (.powered d fact) evs :=
      Always.of_step (fun _ _ hf he => hf.step he.1 (hf.one_of_delivers he.2)) (.powered d fact)
        (hrun.and hdelivers)
    exact Along.of_always hinv hdelivers fun _ _ hf he => hf.one_of_delivers he
  · exact fun hone => hone.mono fun _ _ he => ReportInv.delivers_of_one he

/-- A factorial and a DMA command, each with an interrupt of its own. The second ends while the handler
is at work for the first. -/
theorem acknowledged_delivered_apart :
    let c : Cmd := ⟨0, 0, ⟨7, eduOpFactorial, 5⟩⟩
    let c' : Cmd := ⟨1, 0, ⟨8, eduOpDmaTest, 0⟩⟩
    let evs : List FineEvent := [.driver (.submit 0 c.req), .kick c, .driver (.submit 0 c'.req),
      .kick c', .finish ⟨0, .ring c, .factorial 5⟩, .irqRead, .finish ⟨1, .ring c', .dma⟩, .irqAck,
      .irqPost, .irqComplete, .irqRead, .irqAck, .irqPost, .irqComplete]
    let f := FineBoard.powered freshDev 0
    (∀ e ∈ evs, e.RingRun) ∧ Along (fineStep factorial32) OneReported f evs ∧
      Along (fineStep factorial32) (DeliversReported factorial32) f evs := by
  intro c c' evs f
  have hevs : ∀ e ∈ evs, e.RingRun := by decide
  have hone : Along (fineStep factorial32) OneReported f evs := by
    refine ⟨trivial, trivial, trivial, trivial, trivial, trivial, trivial, trivial, ?_, trivial, trivial,
      trivial, ?_, trivial, trivial⟩
    · have hhandler : (run (fineStep factorial32) f (evs.take 8)).board.handler =
          some (0x001, [⟨0, .ring c, .factorial 5⟩]) := by decide
      exact one_reported hhandler rfl ((lowest_iff (i := ⟨0, by decide⟩) (by decide)).mpr (by decide))
    · have hhandler : (run (fineStep factorial32) f (evs.take 12)).board.handler =
          some (0x100, [⟨1, .ring c', .dma⟩]) := by decide
      exact one_reported hhandler rfl ((lowest_iff (i := ⟨1, by decide⟩) (by decide)).mpr (by decide))
  exact ⟨hevs, hone, (acknowledged_delivered_iff factorial32 freshDev 0 evs hevs).mpr hone⟩

/-- A factorial and a DMA command end before the handler runs. It acknowledges both bits and
completes the factorial. Nothing is left to complete the other one. -/
theorem coalesced_interrupt_loses_completion :
    let c : Cmd := ⟨0, 0, ⟨7, eduOpFactorial, 5⟩⟩
    let c' : Cmd := ⟨1, 0, ⟨8, eduOpDmaTest, 0⟩⟩
    let evs : List FineEvent := [.driver (.submit 0 c.req), .kick c, .driver (.submit 0 c'.req),
      .kick c', .finish ⟨0, .ring c, .factorial 5⟩, .finish ⟨1, .ring c', .dma⟩, .irqRead, .irqAck,
      .irqPost, .irqComplete]
    let f := run (fineStep factorial32) (.powered freshDev 0) evs
    (∀ e ∈ evs, e.RingRun) ∧
      ¬ Along (fineStep factorial32) (DeliversReported factorial32) (.powered freshDev 0) evs ∧
      ¬ f.board.HasEntry c' ∧ f.board.irqStat = 0 ∧ f.board.running = [] ∧ f.board.finished = [] ∧
      f.status = none ∧ f.board.handler = none := by
  intro c c' evs f
  have hnone : ¬ f.board.HasEntry c' := by
    unfold Board.HasEntry
    decide
  refine ⟨by decide, fun h => ?_, hnone, by decide, by decide, by decide, by decide, by decide⟩
  obtain ⟨-, -, -, -, -, -, -, -, hpost, -⟩ := h
  have hhandler : (run (fineStep factorial32) (.powered freshDev 0) (evs.take 8)).board.handler =
      some (0x101, [⟨0, .ring c, .factorial 5⟩, ⟨1, .ring c', .dma⟩]) := by decide
  have hentry := hpost _ _ hhandler ⟨1, .ring c', .dma⟩ (by decide) c' rfl
  revert hentry
  unfold Board.HasEntry
  decide

/-- Two factorials, the second of which ends after the handler has read `REG_IRQ_STAT`. The
acknowledgement clears the bit for both, although one had been read. -/
theorem late_completion_lost :
    let c : Cmd := ⟨0, 0, ⟨7, eduOpFactorial, 5⟩⟩
    let c' : Cmd := ⟨1, 0, ⟨8, eduOpFactorial, 3⟩⟩
    let evs : List FineEvent := [.driver (.submit 0 c.req), .kick c, .driver (.submit 0 c'.req),
      .kick c', .finish ⟨0, .ring c, .factorial 5⟩, .irqRead, .finish ⟨1, .ring c', .factorial 3⟩,
      .irqAck, .irqPost, .irqComplete]
    let f := run (fineStep factorial32) (.powered freshDev 0) evs
    (run (fineStep factorial32) (.powered freshDev 0) (evs.take 6)).board.finished =
        [⟨0, .ring c, .factorial 5⟩] ∧
      ¬ f.board.HasEntry c' ∧ f.board.irqStat = 0 ∧ f.board.running = [] ∧ f.board.finished = [] ∧
      f.status = none ∧ f.board.handler = none := by
  intro c c' evs f
  have hnone : ¬ f.board.HasEntry c' := by
    unfold Board.HasEntry
    decide
  exact ⟨by decide, hnone, by decide, by decide, by decide, by decide, by decide⟩

end PcieDriver.Edu
