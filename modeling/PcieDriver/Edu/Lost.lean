import PcieDriver.Edu.Commands

/-!
# Lost commands

The ring counts as full by the distance from `cq_head` to `sq_tail`. But the handler retires the
lowest slot in flight, and that need not be the oldest command. A command is safe exactly while
it is among the last 63 claims, and nothing in the driver checks that.
-/

open Base

namespace PcieDriver.Edu

/-! ## The property and its condition -/

def Event.RingOp : Event → Prop
  | .submit _ req => ValidOpcode req
  | .irq stat _ => stat ≠ 0
  | .pollCq _ => True
  | _ => False

instance : ∀ e : Event, Decidable e.RingOp
  | .submit _ req => inferInstanceAs (Decidable (ValidOpcode req))
  | .irq stat _ => inferInstanceAs (Decidable (stat ≠ 0))
  | .pollCq _ => .isTrue trivial
  | .open _ | .factorial _ | .dmaTest | .arm | .wake _ | .timeout | .dmaWrite _ | .setEventfd _
  | .resetStats => .isFalse id

def ClaimsFree (s : Sys) : Event → Prop
  | .submit _ _ =>
    ringFull s.dev.sqTail s.dev.cqHead = false → s.dev.inflight (slotOf s.dev.sqTail) = 0
  | _ => True

/-- A submit that finds room finds every command in flight among the last 63 claims. -/
def OldestWithin (s : Sys) : Event → Prop
  | .submit _ _ =>
    ringFull s.dev.sqTail s.dev.cqHead = false → ∀ n, s.InFlight n → s.claimed.length < n + ringSize
  | _ => True

/-- Every accepted command is in flight, unread or delivered, and is one of these once. -/
structure NothingLost (s : Sys) : Prop where
  count : ((s.dev.sqTail - s.dev.cqHead) &&& ringMask).toNat =
    (inUse s.dev.inflight).card + (ringInflight s.dev).toNat
  fate : ∀ n < s.claimed.length,
    s.InFlight n ∨ n ∈ s.unread.map Post.num ∨ n ∈ s.delivered.map Post.num
  once : (s.posted.map Post.num).Nodup
  apart : ∀ n, s.InFlight n → n ∉ s.posted.map Post.num

/-! ## The two conditions agree -/

theorem claimsFree_iff {s : Sys} (h : OwnerInv s) (e : Event) : ClaimsFree s e ↔ OldestWithin s e := by
  cases e with
  | submit client req => exact imp_congr_right fun _ => h.next_free_iff
  | _ => exact Iff.rfl

/-! ## The invariant of runs that claim free slots -/

structure LossInv (s : Sys) : Prop where
  owner : OwnerInv s
  count : (inUse s.dev.inflight).card + s.posted.length = s.claimed.length
  fate : ∀ n < s.claimed.length, s.InFlight n ∨ n ∈ s.posted.map Post.num
  once : (s.posted.map Post.num).Nodup
  apart : ∀ n, s.InFlight n → n ∉ s.posted.map Post.num

theorem LossInv.start (d : EduDev) : LossInv (start d) where
  owner := .start d
  count := by simp [Edu.start, inUse_open]
  fate := by simp [Edu.start]
  once := by simp [Edu.start]
  apart := by simp [Edu.start]

namespace LossInv

variable {s s' : Sys}

theorem nothingLost (h : LossInv s) : NothingLost s where
  count := by
    have hP := h.owner.ring.posted_le
    have hC := h.owner.ring.consumed_le
    have hroom := h.owner.ring.room
    have hcount := h.count
    rw [ringInflight, h.owner.ring.cqTail.sub h.owner.ring.cqHead hC (by unfold ringSize; omega),
      h.owner.ring.sqTail.sub h.owner.ring.cqHead (by omega) (by unfold ringSize; omega)]
    omega
  fate := by
    intro n hn
    rcases h.fate n hn with hfl | hposted
    · exact .inl hfl
    · right
      rw [← List.take_append_drop s.consumed s.posted, List.map_append, List.mem_append] at hposted
      exact hposted.symm
  once := h.once
  apart := h.apart

theorem claim_inFlight {client : Nat} {req : EduSubmitReq}
    (hfree : s.dev.inflight (slotOf s.dev.sqTail) = 0) (hop : req.opcode ≠ 0) (n : Nat) :
    (s.claim client req).InFlight n ↔ s.InFlight n ∨ n = s.claimed.length := by
  constructor
  · rintro ⟨i, hi, rfl⟩
    by_cases hslot : i = slotOf s.dev.sqTail
    · exact .inr (hslot ▸ OwnerInv.claim_slot.2)
    · rw [(OwnerInv.claim_other hslot).1] at hi
      exact .inl ⟨i, hi, (OwnerInv.claim_other hslot).2.symm⟩
  · rintro (⟨i, hi, rfl⟩ | rfl)
    · have hslot : i ≠ slotOf s.dev.sqTail := by
        rintro rfl
        exact hi hfree
      exact ⟨i, (OwnerInv.claim_other hslot).1 ▸ hi, (OwnerInv.claim_other hslot).2⟩
    · exact ⟨_, OwnerInv.claim_slot.1 ▸ hop, OwnerInv.claim_slot.2⟩

theorem claim (h : LossInv s) (client : Nat) {req : EduSubmitReq}
    (hroom : ringFull s.dev.sqTail s.dev.cqHead = false)
    (hfree : s.dev.inflight (slotOf s.dev.sqTail) = 0) (hop : req.opcode ≠ 0) :
    LossInv (s.claim client req) where
  owner := h.owner.claim client req hroom
  count := by
    have hcard := card_inUse_set s.dev.inflight hop hfree
    have := h.count
    rw [OwnerInv.claim_length]
    simp only [Sys.claim, claimSlot, hcard]
    omega
  fate := by
    intro n hn
    rw [OwnerInv.claim_length] at hn
    rw [claim_inFlight hfree hop]
    by_cases hlast : n = s.claimed.length
    · exact .inl (.inr hlast)
    · rcases h.fate n (by omega) with hfl | hposted
      · exact .inl (.inl hfl)
      · exact .inr hposted
  once := h.once
  apart := by
    intro n hn hmem
    rcases (claim_inFlight hfree hop n).mp hn with hfl | rfl
    · exact h.apart n hfl hmem
    · obtain ⟨p, hp, hnum⟩ := List.mem_map.mp hmem
      have := h.owner.posted_lt p hp
      omega

theorem post_inFlight (h : LossInv s) {i : Fin ringSize} {stat fact : BitVec 32}
    (hi : s.dev.inflight i ≠ 0) (n : Nat) :
    (s.post i stat fact).InFlight n ↔ s.InFlight n ∧ n ≠ s.owner i := by
  constructor
  · rintro ⟨j, hj, rfl⟩
    obtain ⟨hji, hj'⟩ := OwnerInv.post_other hj
    exact ⟨⟨j, hj', rfl⟩, fun heq => hji (h.owner.owner_inj hj' hi heq)⟩
  · rintro ⟨⟨j, hj, rfl⟩, hne⟩
    have hji : j ≠ i := by
      rintro rfl
      exact hne rfl
    refine ⟨j, ?_, rfl⟩
    simpa [Sys.post, postCompletion, acknowledged, hji] using hj

theorem post (h : LossInv s) {i : Fin ringSize} (stat fact : BitVec 32)
    (hi : s.dev.inflight i ≠ 0) : LossInv (s.post i stat fact) where
  owner := h.owner.post stat fact hi
  count := by
    have hcard := card_inUse_clear s.dev.inflight hi
    have := h.count
    simp only [Sys.post, postCompletion, acknowledged, List.length_append, List.length_singleton]
    omega
  fate := by
    intro n hn
    rw [h.post_inFlight hi]
    simp only [Sys.post, List.map_append, List.map_singleton, List.mem_append, List.mem_singleton]
    by_cases hlast : n = s.owner i
    · exact .inr (.inr hlast)
    · rcases h.fate n hn with hfl | hposted
      · exact .inl ⟨hfl, hlast⟩
      · exact .inr (.inl hposted)
  once := by
    have hnew := h.apart _ ⟨i, hi, rfl⟩
    simp only [Sys.post, List.map_append, List.map_singleton]
    exact List.nodup_append.mpr ⟨h.once, by simp, by
      rintro a ha b hb rfl
      rw [List.mem_singleton] at hb
      exact hnew (hb ▸ ha)⟩
  apart := by
    intro n hn hmem
    obtain ⟨hfl, hne⟩ := (h.post_inFlight hi n).mp hn
    simp only [Sys.post, List.map_append, List.map_singleton, List.mem_append,
      List.mem_singleton] at hmem
    exact hmem.elim (h.apart n hfl) hne

theorem same (h : LossInv s) (hsame : SameRing s s') (howner : OwnerInv s') : LossInv s' := by
  have hfl : ∀ n, s'.InFlight n ↔ s.InFlight n := by
    intro n
    rw [Sys.InFlight, hsame.inflight, hsame.owner]
    rfl
  refine ⟨howner, ?_, ?_, ?_, ?_⟩
  · rw [hsame.inflight, hsame.posted, hsame.claimed]; exact h.count
  · simp only [hfl, hsame.posted, hsame.claimed]; exact h.fate
  · rw [hsame.posted]; exact h.once
  · simp only [hfl, hsame.posted]; exact h.apart

theorem step (h : LossInv s) {e : Event} (hop : e.RingOp) (hfree : ClaimsFree s e) :
    LossInv (step s e) := by
  have howner := h.owner.step e
  generalize hs' : Edu.step s e = s' at howner ⊢
  have heff : Effect s e s' := hs' ▸ step_effect s e
  cases heff with
  | reset | resetStats => exact absurd hop id
  | claim client req hroom => exact h.claim client hroom (hfree hroom) hop.ne_zero
  | post stat fact i _ hfirst => exact h.post stat fact (firstInflight_some.mp hfirst).1
  | take => exact ⟨howner, h.count, h.fate, h.once, h.apart⟩
  | payload _ _ _ _ hsame _ _ | quiet _ _ _ hsame _ _ => exact h.same hsame howner

end LossInv

/-- **No command is lost** in a run exactly if every submit that finds room finds all commands in
flight among the last 63 claims. -/
theorem no_lost_command_iff (d : EduDev) (evs : List Event) (h : ∀ e ∈ evs, e.RingOp) :
    (Along step ClaimsFree (start d) evs ∧ Always step NothingLost (start d) evs) ↔
      Along step OldestWithin (start d) evs := by
  have hinv : Always step OwnerInv (start d) evs :=
    Always.of_inv (fun _ e hs => hs.step e) (OwnerInv.start d)
  have hops : Along step (fun _ e => e.RingOp) (start d) evs := along_of_forall fun _ e he => h e he
  constructor
  · rintro ⟨hfree, -⟩
    exact Along.of_always hinv hfree fun s e hs he => (claimsFree_iff hs e).mp he
  · intro hold
    have hfree : Along step ClaimsFree (start d) evs :=
      Along.of_always hinv hold fun s e hs he => (claimsFree_iff hs e).mpr he
    refine ⟨hfree, ?_⟩
    have hloss : Always step LossInv (start d) evs :=
      Always.of_step (P := fun s e => e.RingOp ∧ ClaimsFree s e) (fun _ _ hs he => hs.step he.1 he.2)
        (LossInv.start d) (hops.and hfree)
    exact hloss.mono fun _ hs => hs.nothingLost

/-! ## A run that loses a command

63 rounds of submit, interrupt and poll bring the ring to its last slot. A command is left there,
and 63 more rounds go around the ring. Each interrupt retires the lower slot, so the last slot is
still in flight when its turn comes again.
-/

def factReq : EduSubmitReq := ⟨0, eduOpFactorial, 0⟩

def lastSlot : Fin ringSize := ⟨63, by decide⟩

def oneRound : List Event := [.submit 0 factReq, .irq 1 0, .pollCq 0]

def rounds : Nat → List Event
  | 0 => []
  | k + 1 => oneRound ++ rounds k

def lapRun : List Event :=
  rounds 63 ++ (.submit 0 factReq :: (rounds 63 ++ [.submit 0 factReq]))

theorem rounds_ringOp (k : Nat) : ∀ e ∈ rounds k, e.RingOp := by
  induction k with
  | zero => simp [rounds]
  | succ k ih =>
    intro e he
    rcases List.mem_append.mp he with he | he
    · exact (by decide : ∀ e ∈ oneRound, e.RingOp) e he
    · exact ih e he

theorem lapRun_ringOp : ∀ e ∈ lapRun, e.RingOp := by
  intro e he
  simp only [lapRun, List.mem_append, List.mem_cons, List.not_mem_nil, or_false] at he
  rcases he with he | rfl | he | rfl
  · exact rounds_ringOp 63 e he
  · exact .inl rfl
  · exact rounds_ringOp 63 e he
  · exact .inl rfl

structure Drained (s : Sys) (S C : Nat) : Prop where
  ring : RingInv s
  claimed : s.claimed.length = S
  consumed : s.consumed = C
  posted : s.posted.length = C
  near : S ≤ C + 1

/-- A round whose slot comes before every slot in flight leaves those in flight. -/
theorem round_spec {s : Sys} {S C : Nat} (h : Drained s S C)
    (hfree : ∀ i : Fin ringSize, i.val ≤ S % ringSize → s.dev.inflight i = 0) :
    Drained (run step s oneRound) (S + 1) (C + 1) ∧
      (run step s oneRound).dev.inflight = s.dev.inflight := by
  obtain ⟨hring, hS, hC, hP, hnear⟩ := h
  have hslot : (slotOf s.dev.sqTail).val = S % ringSize := hS ▸ hring.sqTail.slot
  have hroom : ringFull s.dev.sqTail s.dev.cqHead = false := hring.not_full (by omega)
  have hclaim : step s (.submit 0 factReq) = s.claim 0 factReq := step_submit_claims hroom
  have hfirst : firstInflight (s.claim 0 factReq).dev = some (slotOf s.dev.sqTail) := by
    refine firstInflight_some.mpr ⟨by rw [OwnerInv.claim_slot.1]; decide, fun j hj => ?_⟩
    rw [(OwnerInv.claim_other (ne_of_lt hj)).1]
    exact hfree j (hslot ▸ le_of_lt hj)
  have hpost : step (s.claim 0 factReq) (.irq 1 0) =
      (s.claim 0 factReq).post (slotOf s.dev.sqTail) 1 0 := step_irq_posts (by decide) hfirst
  have hring' := (hring.step (.submit 0 factReq)).step (.irq 1 0)
  rw [hclaim, hpost] at hring'
  have hne : ((s.claim 0 factReq).post (slotOf s.dev.sqTail) 1 0).dev.cqHead ≠
      ((s.claim 0 factReq).post (slotOf s.dev.sqTail) 1 0).dev.cqTail := by
    rw [ne_eq, hring'.empty_iff]
    simp [Sys.post, Sys.claim, hC, hP]
  have hrun : run step s oneRound = ((s.claim 0 factReq).post (slotOf s.dev.sqTail) 1 0).take := by
    simp only [oneRound, run_cons, run_nil]
    rw [hclaim, hpost, step_poll_takes hne]
  rw [hrun]
  refine ⟨⟨hring'.take hne, ?_, ?_, ?_, by omega⟩, ?_⟩
  · simp [Sys.take, Sys.post, Sys.claim, hS]
  · simp [Sys.take, Sys.post, Sys.claim, hC]
  · simp [Sys.take, Sys.post, Sys.claim, hP]
  · have hzero := hfree (slotOf s.dev.sqTail) (le_of_eq hslot)
    simp [Sys.take, taken, Sys.post, postCompletion, acknowledged, Sys.claim, claimSlot, ← hzero]

theorem rounds_spec (k : Nat) {s : Sys} {S C : Nat} (h : Drained s S C)
    (hk : S % ringSize + k < ringSize)
    (hfree : ∀ i : Fin ringSize, i.val < S % ringSize + k → s.dev.inflight i = 0) :
    Drained (run step s (rounds k)) (S + k) (C + k) ∧
      (run step s (rounds k)).dev.inflight = s.dev.inflight := by
  induction k generalizing s S C with
  | zero => exact ⟨h, rfl⟩
  | succ k ih =>
    obtain ⟨h', hinflight⟩ := round_spec h fun i hi => hfree i (by omega)
    have hmod : (S + 1) % ringSize = S % ringSize + 1 := by
      unfold ringSize at *
      omega
    have := ih h' (by omega) fun i hi => by rw [hinflight]; exact hfree i (by omega)
    rw [rounds, run_append]
    rw [hinflight, show S + 1 + k = S + (k + 1) by omega, show C + 1 + k = C + (k + 1) by omega] at this
    exact this

theorem rounds_free (k : Nat) {s : Sys} {S C : Nat} (h : Drained s S C)
    (hk : S % ringSize + k < ringSize)
    (hfree : ∀ i : Fin ringSize, i.val < S % ringSize + k → s.dev.inflight i = 0) :
    Along step ClaimsFree s (rounds k) := by
  induction k generalizing s S C with
  | zero => trivial
  | succ k ih =>
    obtain ⟨h', hinflight⟩ := round_spec h fun i hi => hfree i (by omega)
    have hmod : (S + 1) % ringSize = S % ringSize + 1 := by
      unfold ringSize at *
      omega
    have hslot : (slotOf s.dev.sqTail).val = S % ringSize := h.claimed ▸ h.ring.sqTail.slot
    refine (along_append _).mpr ⟨⟨fun _ => hfree _ (by omega), trivial, trivial, trivial⟩, ?_⟩
    exact ih h' (by omega) fun i hi => by rw [hinflight]; exact hfree i (by omega)

theorem Drained.submit {s : Sys} {S C : Nat} (h : Drained s S C) (hSC : S = C) :
    step s (.submit 0 factReq) = s.claim 0 factReq ∧ Drained (s.claim 0 factReq) (S + 1) C := by
  have hroom : ringFull s.dev.sqTail s.dev.cqHead = false :=
    h.ring.not_full (by rw [h.claimed, h.consumed]; omega)
  refine ⟨step_submit_claims hroom, h.ring.claim 0 factReq hroom, ?_, h.consumed, h.posted, by omega⟩
  rw [OwnerInv.claim_length, h.claimed]

theorem first_lap : Drained (start freshDev) 0 0 := ⟨RingInv.start _, rfl, rfl, rfl, by omega⟩

theorem first_lap_end :
    Drained (run step (start freshDev) (rounds 63)) 63 63 ∧
      (run step (start freshDev) (rounds 63)).dev.inflight = fun _ => 0 :=
  rounds_spec 63 first_lap (by decide) fun _ _ => rfl

theorem last_slot_claimed {s : Sys} (h : Drained s 63 63) (hin : s.dev.inflight = fun _ => 0) :
    step s (.submit 0 factReq) = s.claim 0 factReq ∧ Drained (s.claim 0 factReq) 64 63 ∧
      (s.claim 0 factReq).dev.inflight = Function.update (fun _ => 0) lastSlot eduOpFactorial := by
  obtain ⟨hstep, hclaimed⟩ := h.submit rfl
  have hslot : slotOf s.dev.sqTail = lastSlot :=
    Fin.ext (by rw [h.ring.sqTail.slot, h.claimed]; rfl)
  refine ⟨hstep, hclaimed, ?_⟩
  simp only [Sys.claim, claimSlot, hslot, hin]
  rfl

theorem below_lastSlot {inflight : Fin ringSize → BitVec 8}
    (h : inflight = Function.update (fun _ => 0) lastSlot eduOpFactorial) (i : Fin ringSize)
    (hi : i.val < 63) : inflight i = 0 := by
  rw [h, Function.update_of_ne (by rintro rfl; exact absurd hi (by decide))]

/-- The state before the last submit of `lapRun`: slot 63 has been in flight for a whole lap. -/
theorem before_lap_end :
    let s := run step (start freshDev) (rounds 63 ++ .submit 0 factReq :: rounds 63)
    Drained s 127 126 ∧ s.dev.inflight = Function.update (fun _ => 0) lastSlot eduOpFactorial := by
  intro s
  obtain ⟨hstep, hclaimed, hin⟩ := last_slot_claimed first_lap_end.1 first_lap_end.2
  obtain ⟨h, hin'⟩ := rounds_spec 63 hclaimed (by decide) fun i hi => below_lastSlot hin i hi
  have hs : s = run step ((run step (start freshDev) (rounds 63)).claim 0 factReq) (rounds 63) := by
    simp only [s, run_append, run_cons, hstep]
  rw [hs]
  exact ⟨h, hin'.trans hin⟩

/-- Up to there nothing is lost, although 63 slots were used again while the last one is in flight. -/
theorem no_lost_command_lap :
    let evs := rounds 63 ++ .submit 0 factReq :: rounds 63
    (∀ e ∈ evs, e.RingOp) ∧ Along step ClaimsFree (start freshDev) evs ∧
      Always step NothingLost (start freshDev) evs := by
  intro evs
  have hops : ∀ e ∈ evs, e.RingOp := fun e he => lapRun_ringOp e (by
    simp only [evs, lapRun, List.mem_append, List.mem_cons] at he ⊢
    tauto)
  obtain ⟨hstep, hclaimed, hin⟩ := last_slot_claimed first_lap_end.1 first_lap_end.2
  have hfree : Along step ClaimsFree (start freshDev) evs := by
    refine (along_append _).mpr ⟨rounds_free 63 first_lap (by decide) fun _ _ => rfl,
      fun _ => congrFun first_lap_end.2 _, ?_⟩
    rw [hstep]
    exact rounds_free 63 hclaimed (by decide) fun i hi => below_lastSlot hin i hi
  have hinv : Always step OwnerInv (start freshDev) evs :=
    Always.of_inv (fun _ e hs => hs.step e) (OwnerInv.start freshDev)
  have hold : Along step OldestWithin (start freshDev) evs :=
    Along.of_always hinv hfree fun _ e hs he => (claimsFree_iff hs e).mp he
  exact ⟨hops, (no_lost_command_iff freshDev evs hops).mpr hold⟩

/-- A submit that claims the slot of a command in flight loses that command. -/
theorem lap_end {s : Sys} (h : Drained s 127 126)
    (hin : s.dev.inflight = Function.update (fun _ => 0) lastSlot eduOpFactorial) :
    ¬ ClaimsFree s (.submit 0 factReq) ∧ ¬ NothingLost (step s (.submit 0 factReq)) := by
  have hroom : ringFull s.dev.sqTail s.dev.cqHead = false :=
    h.ring.not_full (by rw [h.claimed, h.consumed]; omega)
  have hslot : slotOf s.dev.sqTail = lastSlot := Fin.ext (by rw [h.ring.sqTail.slot, h.claimed]; rfl)
  constructor
  · intro hclaims
    have hfree := hclaims hroom
    rw [hslot, hin, Function.update_self] at hfree
    exact absurd hfree (by decide)
  · intro hkept
    rw [step_submit_claims hroom] at hkept
    have hring := h.ring.claim 0 factReq hroom
    have hcount := hkept.count
    have hlen : (s.claim 0 factReq).claimed.length = s.claimed.length + 1 := OwnerInv.claim_length
    have hcard : (inUse (s.claim 0 factReq).dev.inflight).card = 1 := by
      simp only [Sys.claim, claimSlot, hslot, hin, Function.update_idem]
      decide
    -- Two claims are not consumed, and only one slot is in flight and nothing is unread.
    rw [hring.sqTail.sub hring.cqHead (by rw [hlen, h.claimed]; exact h.consumed.le.trans (by omega))
      (by rw [hlen, h.claimed]; simp [Sys.claim, h.consumed, ringSize]), ringInflight,
      hring.cqTail.sub hring.cqHead hring.consumed_le
        (by simp [Sys.claim, h.consumed, h.posted, ringSize]), hcard, hlen, h.claimed] at hcount
    simp [Sys.claim, h.consumed, h.posted] at hcount

/-- The last submit of `lapRun` claims a slot that is in flight, and a command is lost. -/
theorem lap_loses_command :
    (∀ e ∈ lapRun, e.RingOp) ∧ ¬ Along step ClaimsFree (start freshDev) lapRun ∧
      ¬ Always step NothingLost (start freshDev) lapRun := by
  obtain ⟨h, hin⟩ := before_lap_end
  obtain ⟨hclaims, hlost⟩ := lap_end h hin
  have hlap : lapRun = (rounds 63 ++ .submit 0 factReq :: rounds 63) ++ [.submit 0 factReq] := by
    simp [lapRun]
  refine ⟨lapRun_ringOp, ?_, ?_⟩
  · rw [hlap, along_append]
    exact fun hall => hclaims hall.2.1
  · intro hall
    have hlast := hall.last
    rw [hlap, run_append, run_cons, run_nil] at hlast
    exact hlost hlast

end PcieDriver.Edu
