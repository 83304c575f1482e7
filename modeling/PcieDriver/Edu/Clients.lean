import PcieDriver.Edu.Integrity
import PcieDriver.Edu.Queue

/-!
# Several clients on one ring

The device can be open any number of times, and there is one ring for all handles. An open empties
it, and a poll takes the oldest entry, whoever submitted the command.
-/

open Base

namespace PcieDriver.Edu

/-! ## Commands of a client -/

def Sys.Unread (s : Sys) (c : Cmd) : Prop := ∃ p ∈ s.unread, s.claimed[p.num]? = some c

def Event.ClientOp : Event → Prop
  | .open _ | .pollCq _ | .irq _ _ => True
  | .submit _ req => ValidOpcode req
  | _ => False

instance : ∀ e : Event, Decidable e.ClientOp
  | .submit _ req => inferInstanceAs (Decidable (ValidOpcode req))
  | .open _ | .pollCq _ | .irq _ _ => .isTrue trivial
  | .factorial _ | .dmaTest | .arm | .wake _ | .timeout | .dmaWrite _ | .setEventfd _
  | .resetStats => .isFalse id

def Event.via : Event → Option Nat
  | .open client | .submit client _ | .pollCq client => some client
  | _ => none

/-- What each client would have with a ring of its own: an operation takes nothing from another
client, and a poll returns the completion of a command of the same client. -/
structure Isolated (s : Sys) (e : Event) : Prop where
  inFlight : ∀ b c, e.via = some b → c.client ≠ b → (∃ i, s.Holds i c) → ∃ i, (step s e).Holds i c
  unread : ∀ b c, e.via = some b → c.client ≠ b → s.Unread c → (step s e).Unread c
  own : ∀ b p, e = .pollCq b → s.unread.head? = some p →
    ∃ c, s.claimed[p.num]? = some c ∧ c.client = b

/-- What the clients of one ring have. -/
def Shared (s : Sys) : Event → Prop
  | .open b =>
    (∀ i c, ¬ (step s (.open b)).Holds i c) ∧ ∀ c, ¬ (step s (.open b)).Unread c
  | .submit b req =>
    (∀ i c, i ≠ slotOf s.dev.sqTail → s.Holds i c → (step s (.submit b req)).Holds i c) ∧
      ∀ c, s.Unread c → (step s (.submit b req)).Unread c
  | .pollCq b =>
    (∀ i c, s.Holds i c → (step s (.pollCq b)).Holds i c) ∧
      (step s (.pollCq b)).unread = s.unread.tail ∧
      ((s.unread = [] ∧ (eduPollCq s.dev).2 = .error .eagain) ∨
        ∃ p c, s.unread.head? = some p ∧ s.claimed[p.num]? = some c ∧
          (eduPollCq s.dev).2 = .ok p.entry.report ∧ p.entry.report.tag = c.req.tag)
  | _ => True

/-! ## What each operation leaves -/

section
variable {s : Sys}

theorem shared_open (s : Sys) (b : Nat) : Shared s (.open b) := by
  refine ⟨fun i c h => absurd rfl h.1, ?_⟩
  rintro c ⟨p, hp, -⟩
  simp [step, Sys.reset, Sys.unread] at hp

theorem shared_submit (s : Sys) (b : Nat) (req : EduSubmitReq) : Shared s (.submit b req) := by
  cases hfull : ringFull s.dev.sqTail s.dev.cqHead with
  | true =>
    rw [Shared, step_submit_full hfull]
    exact ⟨fun i c _ h => h, fun c h => h⟩
  | false =>
    rw [Shared, step_submit_claims hfull]
    constructor
    · rintro i c hne ⟨hi, hc⟩
      have hother : (s.claim b req).dev.inflight i = s.dev.inflight i ∧
          (s.claim b req).owner i = s.owner i := OwnerInv.claim_other hne
      exact ⟨hother.1 ▸ hi, hother.2 ▸ getElem?_claim hc⟩
    · rintro c ⟨p, hp, hc⟩
      exact ⟨p, hp, getElem?_claim hc⟩

theorem shared_poll (hinv : OwnerInv s) (hecho : Echoes s) (b : Nat) : Shared s (.pollCq b) := by
  have hring := hinv.ring
  rw [Shared]
  by_cases hempty : s.dev.cqHead = s.dev.cqTail
  · have hnone : s.unread = [] := by
      have := hring.queue_eq_nil.mpr hempty
      exact List.map_eq_nil_iff.mp this
    rw [step_poll_empty hempty, hnone, poll_empty hempty]
    exact ⟨fun i c h => h, rfl, .inl ⟨rfl, rfl⟩⟩
  · rw [step_poll_takes hempty]
    refine ⟨fun i c h => h, (List.tail_drop ..).symm, .inr ?_⟩
    have hpoll := poll_head hring
    unfold Sys.queue at hpoll
    cases hunread : s.unread with
    | nil => exact absurd (hring.queue_eq_nil.mp (by rw [Sys.queue, hunread]; rfl)) hempty
    | cons p rest =>
      rw [hunread, List.map_cons] at hpoll
      have hmem : p ∈ s.posted := List.mem_of_mem_drop (hunread ▸ List.mem_cons_self)
      obtain ⟨c, hc, htag⟩ := hecho p hmem
      exact ⟨p, c, rfl, hc, hpoll, htag⟩

theorem Event.ClientOp.spares {e : Event} (he : e.ClientOp) : SparesInflight s e := by
  cases e with
  | dmaWrite | dmaTest | wake => exact absurd he id
  | _ => exact fun hsome => absurd hsome (by simp [payloadOf])

end

/-- **The clients share one ring**, in every step of every run. -/
theorem clients_share_ring (d : EduDev) (evs : List Event) (h : ∀ e ∈ evs, e.ClientOp) :
    Along step Shared (start d) evs := by
  have hstart : OwnerInv (start d) ∧ Intact (start d) ∧ Echoes (start d) :=
    ⟨.start d, fun i hi => absurd rfl hi, by simp [Echoes, start]⟩
  have hops : Along step (fun _ e => e.ClientOp) (start d) evs := along_of_forall fun _ e he => h e he
  have hinv : Always step (fun s => OwnerInv s ∧ Intact s ∧ Echoes s) (start d) evs :=
    Always.of_step (fun _ e hs he => ⟨hs.1.step e, integrity_step hs.2 he.spares⟩) hstart hops
  refine Along.of_always hinv hops fun s e hs he => ?_
  cases e with
  | «open» b => exact shared_open s b
  | submit b req => exact shared_submit s b req
  | pollCq b => exact shared_poll hs.1 hs.2.2 b
  | _ => trivial

/-- Client 1 opens while a command of client 0 is in flight, and polls what client 0 waits for. -/
theorem clients_share_ring_two :
    let evs : List Event := [.submit 0 ⟨7, eduOpFactorial, 5⟩, .open 1,
      .submit 0 ⟨8, eduOpFactorial, 3⟩, .submit 1 ⟨9, eduOpDmaTest, 0⟩, .irq 1 6, .pollCq 1]
    (∀ e ∈ evs, e.ClientOp) ∧ Along step Shared (start freshDev) evs := by
  intro evs
  have hops : ∀ e ∈ evs, e.ClientOp := by decide
  exact ⟨hops, clients_share_ring freshDev evs hops⟩

/-- An open of client 1 drops the command of client 0, and a poll of client 1 takes the completion
of client 0. -/
theorem clients_not_isolated :
    let dropped : List Event := [.submit 0 ⟨7, eduOpFactorial, 5⟩, .open 1]
    let taken : List Event := [.open 1, .submit 0 ⟨7, eduOpFactorial, 5⟩, .irq 1 120, .pollCq 1]
    (∀ e ∈ dropped ++ taken, e.ClientOp) ∧
      ¬ Along step Isolated (start freshDev) dropped ∧ ¬ Along step Isolated (start freshDev) taken := by
  intro dropped taken
  refine ⟨by decide, ?_, ?_⟩
  · rintro ⟨-, hopen, -⟩
    obtain ⟨i, hi, -⟩ := hopen.inFlight 1 ⟨0, 0, ⟨7, eduOpFactorial, 5⟩⟩ rfl (by decide)
      ⟨⟨0, by decide⟩, by decide, rfl⟩
    exact hi rfl
  · rintro ⟨-, -, -, hpoll, -⟩
    obtain ⟨c, hc, hclient⟩ := hpoll.own 1 _ rfl rfl
    obtain rfl : (⟨0, 0, ⟨7, eduOpFactorial, 5⟩⟩ : Cmd) = c := Option.some.inj hc
    exact absurd hclient (by decide)

end PcieDriver.Edu
