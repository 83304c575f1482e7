import PcieDriver.Edu.Occupancy

/-!
# Which command a slot belongs to

The owner of a slot in flight is the last command that claimed it, and it is among the last 64
claims.
-/

open Base

namespace PcieDriver.Edu

def Sys.InFlight (s : Sys) (n : Nat) : Prop := ∃ i, s.dev.inflight i ≠ 0 ∧ s.owner i = n

def Sys.Holds (s : Sys) (i : Fin ringSize) (c : Cmd) : Prop :=
  s.dev.inflight i ≠ 0 ∧ s.claimed[s.owner i]? = some c

structure OwnerInv (s : Sys) : Prop where
  ring : RingInv s
  mod : ∀ i, s.dev.inflight i ≠ 0 → s.owner i % ringSize = i.val
  lt : ∀ i, s.dev.inflight i ≠ 0 → s.owner i < s.claimed.length
  window : ∀ i, s.dev.inflight i ≠ 0 → s.claimed.length ≤ s.owner i + ringSize
  posted_lt : ∀ p ∈ s.posted, p.num < s.claimed.length
  id_lt : ∀ c ∈ s.claimed, c.id < s.calls

theorem OwnerInv.start (d : EduDev) : OwnerInv (start d) where
  ring := .start d
  mod := by simp [Edu.start, eduOpen]
  lt := by simp [Edu.start, eduOpen]
  window := by simp [Edu.start, eduOpen]
  posted_lt := by simp [Edu.start]
  id_lt := by simp [Edu.start]

namespace OwnerInv

variable {s s' : Sys}

theorem owner_inj (h : OwnerInv s) {i j : Fin ringSize} (hi : s.dev.inflight i ≠ 0)
    (hj : s.dev.inflight j ≠ 0) (heq : s.owner i = s.owner j) : i = j := by
  apply Fin.ext
  rw [← h.mod i hi, ← h.mod j hj, heq]

theorem claim_other {client : Nat} {req : EduSubmitReq} {i : Fin ringSize}
    (hne : i ≠ slotOf s.dev.sqTail) :
    (s.claim client req).dev.inflight i = s.dev.inflight i ∧
      (s.claim client req).owner i = s.owner i := by
  simp [Sys.claim, claimSlot, hne]

theorem claim_slot {client : Nat} {req : EduSubmitReq} :
    (s.claim client req).dev.inflight (slotOf s.dev.sqTail) = req.opcode ∧
      (s.claim client req).owner (slotOf s.dev.sqTail) = s.claimed.length := by
  simp [Sys.claim, claimSlot]

theorem claim_length {client : Nat} {req : EduSubmitReq} :
    (s.claim client req).claimed.length = s.claimed.length + 1 := by simp [Sys.claim]

theorem claim (h : OwnerInv s) (client : Nat) (req : EduSubmitReq)
    (hroom : ringFull s.dev.sqTail s.dev.cqHead = false) : OwnerInv (s.claim client req) where
  ring := h.ring.claim client req hroom
  mod := by
    intro i hi
    by_cases hslot : i = slotOf s.dev.sqTail
    · subst hslot
      rw [claim_slot.2, h.ring.sqTail.slot]
    · rw [(claim_other hslot).2]
      exact h.mod i ((claim_other hslot).1 ▸ hi)
  lt := by
    intro i hi
    rw [claim_length]
    by_cases hslot : i = slotOf s.dev.sqTail
    · subst hslot
      rw [claim_slot.2]
      omega
    · rw [(claim_other hslot).2]
      have := h.lt i ((claim_other hslot).1 ▸ hi)
      omega
  window := by
    intro i hi
    rw [claim_length]
    by_cases hslot : i = slotOf s.dev.sqTail
    · subst hslot
      rw [claim_slot.2, ringSize]
      omega
    · rw [(claim_other hslot).1] at hi
      rw [(claim_other hslot).2]
      -- The command 64 claims back had this very slot, and `i` is another one.
      have hne : s.claimed.length ≠ s.owner i + ringSize := by
        intro heq
        apply hslot
        apply Fin.ext
        rw [h.ring.sqTail.slot, heq, Nat.add_mod_right, h.mod i hi]
      have := h.window i hi
      omega
  posted_lt := by
    intro p hp
    rw [claim_length]
    have := h.posted_lt p hp
    omega
  id_lt := by
    intro c hc
    simp only [Sys.claim, List.mem_append, List.mem_singleton] at hc ⊢
    rcases hc with hc | rfl
    · have := h.id_lt c hc
      omega
    · exact Nat.lt_succ_self _

theorem post_other {i j : Fin ringSize} {stat fact : BitVec 32}
    (hj : (s.post i stat fact).dev.inflight j ≠ 0) : j ≠ i ∧ s.dev.inflight j ≠ 0 := by
  by_cases hji : j = i
  · subst hji
    simp [Sys.post, postCompletion, acknowledged] at hj
  · refine ⟨hji, ?_⟩
    simpa [Sys.post, postCompletion, acknowledged, hji] using hj

theorem post (h : OwnerInv s) {i : Fin ringSize} (stat fact : BitVec 32)
    (hi : s.dev.inflight i ≠ 0) : OwnerInv (s.post i stat fact) where
  ring := h.ring.post stat fact hi
  mod := fun j hj => h.mod j (post_other hj).2
  lt := fun j hj => h.lt j (post_other hj).2
  window := fun j hj => h.window j (post_other hj).2
  posted_lt := by
    intro p hp
    simp only [Sys.post, List.mem_append, List.mem_singleton] at hp
    rcases hp with hp | rfl
    · exact h.posted_lt p hp
    · exact h.lt i hi
  id_lt := h.id_lt

theorem same (h : OwnerInv s) (hsame : SameRing s s') (hring : RingInv s') : OwnerInv s' where
  ring := hring
  mod := by rw [hsame.inflight, hsame.owner]; exact h.mod
  lt := by rw [hsame.inflight, hsame.owner, hsame.claimed]; exact h.lt
  window := by rw [hsame.inflight, hsame.owner, hsame.claimed]; exact h.window
  posted_lt := by rw [hsame.posted, hsame.claimed]; exact h.posted_lt
  id_lt := by
    rw [hsame.claimed]
    exact fun c hc => (h.id_lt c hc).trans_le hsame.calls

/-- The next slot is free exactly if every command in flight is among the last 63 claims. -/
theorem next_free_iff (h : OwnerInv s) : s.dev.inflight (slotOf s.dev.sqTail) = 0 ↔
    ∀ n, s.InFlight n → s.claimed.length < n + ringSize := by
  constructor
  · rintro hfree n ⟨i, hi, rfl⟩
    -- The command exactly 64 claims back would have this slot, and the slot is free.
    have hne : s.claimed.length ≠ s.owner i + ringSize := by
      intro heq
      have hslot : i = slotOf s.dev.sqTail := by
        apply Fin.ext
        rw [h.ring.sqTail.slot, heq, Nat.add_mod_right, h.mod i hi]
      exact hi (hslot ▸ hfree)
    have := h.window i hi
    omega
  · intro hold
    by_contra hbusy
    have hlt := h.lt _ hbusy
    have hwithin := hold _ ⟨_, hbusy, rfl⟩
    have hmod : s.owner (slotOf s.dev.sqTail) % ringSize = s.claimed.length % ringSize := by
      rw [h.mod _ hbusy, h.ring.sqTail.slot]
    exact mod_ne_of_lt hlt hwithin hmod

theorem step (h : OwnerInv s) (e : Event) : OwnerInv (step s e) := by
  have hring := h.ring.step e
  generalize hs' : Edu.step s e = s' at hring ⊢
  have heff : Effect s e s' := hs' ▸ step_effect s e
  cases heff with
  | reset client =>
    exact ⟨hring, by simp [Sys.reset, eduOpen], by simp [Sys.reset, eduOpen],
      by simp [Sys.reset, eduOpen], by simp [Sys.reset], by simp [Sys.reset]⟩
  | claim client req hroom => exact h.claim client req hroom
  | post stat fact i _ hfirst => exact h.post stat fact (firstInflight_some.mp hfirst).1
  | take | resetStats => exact ⟨hring, h.mod, h.lt, h.window, h.posted_lt, h.id_lt⟩
  | payload _ _ _ _ hsame _ _ | quiet _ _ _ hsame _ _ => exact h.same hsame hring

theorem reachable (d : EduDev) (evs : List Event) : OwnerInv (run Edu.step (Edu.start d) evs) :=
  run_inv (fun _ e h => h.step e) (OwnerInv.start d)

end OwnerInv

end PcieDriver.Edu
