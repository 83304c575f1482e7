import PcieDriver.Edu.Commands

/-!
# What a refused submit leaves behind

A full ring is refused before anything changes. An unknown opcode is refused after the slot has
been claimed, so the slot stays in flight and a later interrupt completes it.
-/

open Base

namespace PcieDriver.Edu

def NeverPosted (id : Nat) (s : Sys) : Prop :=
  ∀ p ∈ s.posted, ∀ c, s.claimed[p.num]? = some c → c.id ≠ id

/-- If this submit is refused, it changes nothing, writes no register and is never completed. -/
def AllOrNothing (s : Sys) (client : Nat) (req : EduSubmitReq) : Prop :=
  let (e', writes, ret) := eduRingSubmit s.dev req
  ret ≠ .ok () →
    e'.sqTail = s.dev.sqTail ∧ e'.cqTail = s.dev.cqTail ∧ e'.cqHead = s.dev.cqHead ∧
    (∀ i < ringSize, sqAt e'.slab i = sqAt s.dev.slab i) ∧
    e'.inflight = s.dev.inflight ∧ e'.statSqSubmitted = s.dev.statSqSubmitted ∧ writes = [] ∧
    ∀ evs, Always step (NeverPosted s.calls) (step s (.submit client req)) evs

/-! ## A call that got no slot stays without one -/

structure Unclaimed (id : Nat) (s : Sys) : Prop where
  past : id < s.calls
  none : ∀ c ∈ s.claimed, c.id ≠ id

theorem Unclaimed.neverPosted {id : Nat} {s : Sys} (h : Unclaimed id s) : NeverPosted id s :=
  fun _ _ c hc => h.none c (List.mem_of_getElem? hc)

theorem Unclaimed.step {id : Nat} {s : Sys} (h : Unclaimed id s) (e : Event) :
    Unclaimed id (step s e) := by
  generalize hs' : Edu.step s e = s'
  have heff : Effect s e s' := hs' ▸ step_effect s e
  cases heff with
  | reset client => exact ⟨h.past, by simp [Sys.reset]⟩
  | claim client req _ =>
    refine ⟨Nat.lt_succ_of_lt h.past, ?_⟩
    intro c hc
    simp only [Sys.claim, List.mem_append, List.mem_singleton] at hc
    rcases hc with hc | rfl
    · exact h.none c hc
    · exact (ne_of_lt h.past).symm
  | post | take | resetStats => exact ⟨h.past, h.none⟩
  | payload _ _ _ _ hsame _ _ | quiet _ _ _ hsame _ _ =>
    exact ⟨h.past.trans_le hsame.calls, by rw [hsame.claimed]; exact h.none⟩

/-! ## The condition -/

theorem ringNext_ne (idx : BitVec 32) : ringNext idx ≠ idx := by
  intro h
  have := toNat_ringNext idx
  rw [h] at this
  omega

theorem allOrNothing_of_full {s : Sys} (h : OwnerInv s) (client : Nat) (req : EduSubmitReq)
    (hfull : ringFull s.dev.sqTail s.dev.cqHead = true) : AllOrNothing s client req := by
  have hun : Unclaimed s.calls (step s (.submit client req)) := by
    rw [step_submit_full hfull]
    exact ⟨Nat.lt_succ_self _, fun c hc => ne_of_lt (h.id_lt c hc)⟩
  rw [AllOrNothing, submit_full hfull]
  intro _
  refine ⟨rfl, rfl, rfl, fun _ _ => rfl, rfl, rfl, rfl, fun evs => ?_⟩
  exact (Always.of_inv (fun _ e hs => hs.step e) hun).mono fun _ hs => hs.neverPosted

theorem not_allOrNothing {s : Sys} {client : Nat} {req : EduSubmitReq}
    (hroom : ringFull s.dev.sqTail s.dev.cqHead = false) (hop : ¬ ValidOpcode req) :
    ¬ AllOrNothing s client req := by
  intro h
  rw [AllOrNothing, submit_refuses_opcode hroom hop] at h
  exact ringNext_ne _ (h (by simp)).1

/-- **A submit is all or nothing** exactly if the ring is full or the opcode is known. -/
theorem submit_all_or_nothing_iff (d : EduDev) (evs : List Event) (client : Nat)
    (req : EduSubmitReq) :
    let s := run step (start d) evs
    AllOrNothing s client req ↔ ringFull s.dev.sqTail s.dev.cqHead = true ∨ ValidOpcode req := by
  intro s
  have hinv : OwnerInv s := OwnerInv.reachable d evs
  constructor
  · intro h
    by_contra hcond
    rw [not_or, Bool.not_eq_true] at hcond
    exact not_allOrNothing hcond.1 hcond.2 h
  · intro hcond
    cases hfull : ringFull s.dev.sqTail s.dev.cqHead with
    | true => exact allOrNothing_of_full hinv client req hfull
    | false =>
      have hop : ValidOpcode req := by simpa [hfull] using hcond
      have hok := submit_accepts hfull hop
      intro hret
      exact absurd hok hret

/-- Opcode 0xFF on a fresh ring: refused, and yet the slot is claimed, and the next interrupt
gives the caller a successful completion. -/
theorem bad_opcode_completes :
    let req : EduSubmitReq := ⟨1, 0xFF, 0⟩
    let s := run step (start freshDev) [.submit 0 req, .irq 1 120]
    ¬ AllOrNothing (start freshDev) 0 req ∧
      (eduRingSubmit (start freshDev).dev req).2.2 = .error .einval ∧
      (eduPollCq s.dev).2 = .ok ⟨1, 0, 0⟩ := by
  intro req s
  exact ⟨not_allOrNothing rfl (by decide), rfl, by decide⟩

end PcieDriver.Edu
