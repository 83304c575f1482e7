import PcieDriver.Edu.Integrity
import PcieDriver.Edu.Lost

/-!
# The order of completions

The handler retires the lowest slot in flight. That is the oldest command only while all that are
in flight were accepted in one lap of the ring.
-/

open Base

namespace PcieDriver.Edu

/-! ## The property and its condition -/

/-- Entry `k` was posted for command `k`. -/
def InTurn (s : Sys) : Prop := s.posted.map Post.num = List.range s.posted.length

/-- Entry `k` carries the tag of the `k`-th accepted command. -/
def TagsInTurn (s : Sys) : Prop :=
  ∀ (k : Nat) (p : Post), s.posted[k]? = some p →
    ∃ c, s.claimed[k]? = some c ∧ p.entry.tag = c.req.tag

/-- Command `posted.length`, which is the next to complete, and the newest one were accepted in the
same lap. -/
def OneLap (s : Sys) : Event → Prop
  | .irq _ _ => s.posted.length < s.claimed.length →
      s.posted.length / ringSize = (s.claimed.length - 1) / ringSize
  | _ => True

/-! ## Runs that complete in turn -/

structure TurnInv (s : Sys) : Prop where
  loss : LossInv s
  turn : InTurn s

theorem TurnInv.start (d : EduDev) : TurnInv (start d) := ⟨.start d, rfl⟩

namespace TurnInv

variable {s : Sys}

theorem inFlight_iff (h : TurnInv s) (n : Nat) :
    s.InFlight n ↔ s.posted.length ≤ n ∧ n < s.claimed.length := by
  have hposted : n ∈ s.posted.map Post.num ↔ n < s.posted.length := by rw [h.turn, List.mem_range]
  constructor
  · intro hn
    have hnot := h.loss.apart n hn
    obtain ⟨i, hi, rfl⟩ := hn
    rw [hposted] at hnot
    exact ⟨not_lt.mp hnot, h.loss.owner.lt i hi⟩
  · rintro ⟨hle, hlt⟩
    refine (h.loss.fate n hlt).resolve_right ?_
    rw [hposted]
    exact not_lt.mpr hle

theorem claimsFree (h : TurnInv s) (e : Event) : ClaimsFree s e := by
  rw [claimsFree_iff h.loss.owner]
  cases e with
  | submit client req =>
    intro _ n hn
    have hle := ((h.inFlight_iff n).mp hn).1
    have hC := h.loss.owner.ring.consumed_le
    have hroom := h.loss.owner.ring.room
    unfold ringSize
    omega
  | _ => trivial

/-- The lowest slot in flight is the oldest command's exactly if the window does not wrap. -/
theorem lowest_iff_oneLap (h : TurnInv s) {i : Fin ringSize} (hfirst : firstInflight s.dev = some i) :
    s.owner i = s.posted.length ↔
      s.posted.length / ringSize = (s.claimed.length - 1) / ringSize := by
  obtain ⟨hi, hlow⟩ := firstInflight_some.mp hfirst
  obtain ⟨hle, hlt⟩ := (h.inFlight_iff _).mp ⟨i, hi, rfl⟩
  have hslot := h.loss.owner.mod i hi
  -- No command in flight has a lower slot.
  have hmin : ∀ n, s.posted.length ≤ n → n < s.claimed.length → i.val ≤ n % ringSize := by
    intro n hn hn'
    obtain ⟨j, hj, rfl⟩ := (h.inFlight_iff n).mpr ⟨hn, hn'⟩
    rw [h.loss.owner.mod j hj]
    by_contra hlt'
    exact hj (hlow j (not_le.mp hlt'))
  have hold := hmin s.posted.length (le_refl _) (by omega)
  have hnew := hmin (s.claimed.length - 1) (by omega) (by omega)
  have hC := h.loss.owner.ring.consumed_le
  have hroom := h.loss.owner.ring.room
  unfold ringSize at *
  constructor <;> intro <;> omega

theorem lt_of_first (h : TurnInv s) {i : Fin ringSize} (hfirst : firstInflight s.dev = some i) :
    s.posted.length < s.claimed.length := by
  obtain ⟨hle, hlt⟩ := (h.inFlight_iff _).mp ⟨i, (firstInflight_some.mp hfirst).1, rfl⟩
  omega

theorem inTurn_post (h : InTurn s) {i : Fin ringSize} {stat fact : BitVec 32} :
    InTurn (s.post i stat fact) ↔ s.owner i = s.posted.length := by
  have hnums : s.posted.map Post.num = List.range s.posted.length := h
  simp [InTurn, Sys.post, List.range_succ, hnums]

theorem step (h : TurnInv s) {e : Event} (hop : e.RingOp) (he : OneLap s e) :
    TurnInv (step s e) := by
  refine ⟨h.loss.step hop (h.claimsFree e), ?_⟩
  generalize hs' : Edu.step s e = s'
  have heff : Effect s e s' := hs' ▸ step_effect s e
  cases heff with
  | reset | resetStats => exact absurd hop id
  | claim | take => exact h.turn
  | post stat fact i _ hfirst =>
    exact (inTurn_post h.turn).mpr ((h.lowest_iff_oneLap hfirst).mpr (he (h.lt_of_first hfirst)))
  | payload _ _ _ _ hsame _ _ | quiet _ _ _ hsame _ _ => rw [InTurn, hsame.posted]; exact h.turn

theorem oneLap (h : TurnInv s) {e : Event} (hop : e.RingOp) (h' : InTurn (Edu.step s e)) :
    OneLap s e := by
  cases e with
  | irq stat fact =>
    intro hlt
    obtain ⟨j, hj, -⟩ := (h.inFlight_iff _).mpr ⟨le_refl _, hlt⟩
    cases hfirst : firstInflight s.dev with
    | none => exact absurd ((inUse_eq_empty _).mp (firstInflight_none.mp hfirst) j) hj
    | some i =>
      rw [step_irq_posts hop hfirst] at h'
      exact (h.lowest_iff_oneLap hfirst).mp ((inTurn_post h.turn).mp h')
  | _ => trivial

end TurnInv

theorem tagsInTurn {s : Sys} (h : InTurn s) (hecho : Echoes s) : TagsInTurn s := by
  intro k p hp
  have hk : k < s.posted.length := (List.getElem?_eq_some_iff.mp hp).1
  have hnum : p.num = k := by
    have hmap : (s.posted.map Post.num)[k]? = some p.num := by simp [hp]
    rw [h, List.getElem?_range hk] at hmap
    exact (Option.some.inj hmap).symm
  obtain ⟨c, hc, htag⟩ := hecho p (List.mem_of_getElem? hp)
  exact ⟨c, hnum ▸ hc, htag⟩

theorem Event.RingOp.spares {s : Sys} {e : Event} (he : e.RingOp) : SparesInflight s e := by
  cases e with
  | submit | irq | pollCq => exact fun hsome => absurd hsome (by simp [payloadOf])
  | _ => exact absurd he id

/-- **Completions come in the order of submission** in a run exactly if, at every interrupt, all
that is in flight belongs to one lap of the ring. -/
theorem completions_in_turn_iff (d : EduDev) (evs : List Event) (h : ∀ e ∈ evs, e.RingOp) :
    (Always step InTurn (start d) evs ↔ Along step OneLap (start d) evs) ∧
      (Along step OneLap (start d) evs → Always step TagsInTurn (start d) evs) := by
  have hops : Along step (fun _ e => e.RingOp) (start d) evs := along_of_forall fun _ e he => h e he
  have hstart : TurnInv (start d) ∧ Intact (start d) ∧ Echoes (start d) :=
    ⟨.start d, fun i hi => absurd rfl hi, by simp [Echoes, start]⟩
  have hturn : Along step OneLap (start d) evs →
      Always step (fun s => TurnInv s ∧ Intact s ∧ Echoes s) (start d) evs := fun hlap =>
    Always.of_step (P := fun s e => e.RingOp ∧ OneLap s e)
      (fun _ _ hs he => ⟨hs.1.step he.1 he.2, integrity_step hs.2 he.1.spares⟩) hstart (hops.and hlap)
  refine ⟨⟨fun hall => ?_, fun hlap => (hturn hlap).mono fun _ hs => hs.1.turn⟩, fun hlap => ?_⟩
  · have hsteps : Along step (fun s e => e.RingOp ∧ InTurn s ∧ InTurn (step s e)) (start d) evs :=
      hops.and hall.steps
    have hinv : Always step TurnInv (start d) evs :=
      Always.of_step (fun _ _ hs he => hs.step he.1 (hs.oneLap he.1 he.2.2)) (TurnInv.start d) hsteps
    exact Along.of_always hinv hsteps fun _ _ hs he => hs.oneLap he.1 he.2.2
  · exact (hturn hlap).mono fun _ hs => tagsInTurn hs.1.turn hs.2.2

/-- Two commands in flight, away from the end of the ring. -/
theorem completions_in_turn_two :
    let evs : List Event := [.submit 0 ⟨7, eduOpFactorial, 5⟩, .submit 0 ⟨8, eduOpDmaTest, 0⟩,
      .irq 1 120, .irq 0x100 120]
    (∀ e ∈ evs, e.RingOp) ∧ Along step OneLap (start freshDev) evs ∧
      Always step TagsInTurn (start freshDev) evs := by
  intro evs
  have hops : ∀ e ∈ evs, e.RingOp := by decide
  have hlap : Along step OneLap (start freshDev) evs :=
    ⟨trivial, trivial, fun _ => by decide, fun _ => by decide, trivial⟩
  exact ⟨hops, hlap, (completions_in_turn_iff freshDev evs hops).2 hlap⟩

/-! ## A run across the end of the ring

63 rounds bring the ring to its last slot. The next command takes that slot, and the one after it
takes slot 0.
-/

/-- With one interrupt for each command, the `k`-th comes after the `k`-th submit. -/
def Due (s : Sys) : Event → Prop
  | .irq _ _ => s.posted.length < s.claimed.length
  | _ => True

def wrapRun : List Event :=
  rounds 63 ++ [.submit 0 ⟨1, eduOpFactorial, 0⟩, .submit 0 ⟨2, eduOpFactorial, 0⟩, .irq 1 0]

theorem rounds_due (k : Nat) {s : Sys} {C : Nat} (h : Drained s C C)
    (hk : C % ringSize + k < ringSize) (hfree : ∀ i, s.dev.inflight i = 0) :
    Along step Due s (rounds k) := by
  induction k generalizing s C with
  | zero => trivial
  | succ k ih =>
    obtain ⟨h', hinflight⟩ := round_spec h fun i _ => hfree i
    obtain ⟨hstep, hdrained⟩ := h.submit rfl
    have hround : Along step Due s oneRound := by
      refine ⟨trivial, ?_, trivial, trivial⟩
      simp only [Due]
      rw [hstep, hdrained.posted, hdrained.claimed]
      omega
    have hmod : (C + 1) % ringSize = C % ringSize + 1 := by
      unfold ringSize at *
      omega
    exact (along_append _).mpr ⟨hround, ih h' (by omega) fun i => by rw [hinflight, hfree]⟩

/-- Two commands across the end of the ring, and the interrupt for the first. -/
theorem wrap_end {s : Sys} (h : Drained s 63 63) :
    let evs : List Event :=
      [.submit 0 ⟨1, eduOpFactorial, 0⟩, .submit 0 ⟨2, eduOpFactorial, 0⟩, .irq 1 0]
    Along step Due s evs ∧ ¬ TagsInTurn (run step s evs) := by
  intro evs
  have hroom : ringFull s.dev.sqTail s.dev.cqHead = false :=
    h.ring.not_full (by rw [h.claimed, h.consumed]; omega)
  -- The command that takes the last slot.
  generalize hs₁ : s.claim 0 ⟨1, eduOpFactorial, 0⟩ = s₁
  have hring₁ : RingInv s₁ := hs₁ ▸ h.ring.claim 0 _ hroom
  have hclaimed₁ : s₁.claimed = s.claimed ++ [⟨s.calls, 0, ⟨1, eduOpFactorial, 0⟩⟩] := by
    rw [← hs₁, Sys.claim]
  have hlen₁ : s₁.claimed.length = 64 := by rw [hclaimed₁, List.length_append, h.claimed]; rfl
  have hconsumed₁ : s₁.consumed = 63 := by rw [← hs₁]; exact h.consumed
  have hposted₁ : s₁.posted = s.posted := by rw [← hs₁, Sys.claim]
  have hroom₁ : ringFull s₁.dev.sqTail s₁.dev.cqHead = false :=
    hring₁.not_full (by rw [hlen₁, hconsumed₁]; omega)
  -- The command after it has slot 0, and the handler finds that slot first.
  have hslot : slotOf s₁.dev.sqTail = ⟨0, by decide⟩ := Fin.ext (by rw [hring₁.sqTail.slot, hlen₁]; rfl)
  generalize hs₂ : s₁.claim 0 ⟨2, eduOpFactorial, 0⟩ = s₂
  have hfirst : firstInflight s₂.dev = some ⟨0, by decide⟩ := by
    rw [firstInflight_some, ← hs₂, ← hslot, OwnerInv.claim_slot.1]
    exact ⟨by decide, fun j hj => absurd hj (by rw [hslot]; exact Nat.not_lt_zero _)⟩
  have htag : (completionOf s₂.dev ⟨0, by decide⟩ 0).tag = 2 := by
    rw [← hs₂, ← hslot, completionOf, Sys.claim, claimSlot, sqAt_setSq_same]
  have hrun : run step s evs = s₂.post ⟨0, by decide⟩ 1 0 := by
    rw [run_cons, run_cons, run_cons, run_nil, step_submit_claims hroom, hs₁,
      step_submit_claims hroom₁, hs₂, step_irq_posts (by decide) hfirst]
  refine ⟨⟨trivial, trivial, ?_, trivial⟩, ?_⟩
  · rw [step_submit_claims hroom, hs₁, step_submit_claims hroom₁, Due, OwnerInv.claim_length, hlen₁]
    simp [Sys.claim, hposted₁, h.posted]
  · intro hturn
    rw [hrun] at hturn
    obtain ⟨c, hc, hctag⟩ := hturn 63
      ⟨s₂.owner ⟨0, by decide⟩, completionOf s₂.dev ⟨0, by decide⟩ 0, 0⟩
      (by simp [Sys.post, ← hs₂, Sys.claim, hposted₁, h.posted])
    obtain rfl : (⟨s.calls, 0, ⟨1, eduOpFactorial, 0⟩⟩ : Cmd) = c := by
      simpa [Sys.post, ← hs₂, Sys.claim, hclaimed₁, h.claimed] using hc
    have htags : (2 : BitVec 16) = 1 := htag.symm.trans hctag
    exact absurd htags (by decide)

/-- The interrupt for the command in slot 63 completes the one in slot 0. -/
theorem wrap_completes_out_of_turn :
    (∀ e ∈ wrapRun, e.RingOp) ∧ Along step Due (start freshDev) wrapRun ∧
      ¬ Always step TagsInTurn (start freshDev) wrapRun := by
  have h0 : Drained (start freshDev) 0 0 := ⟨RingInv.start _, rfl, rfl, rfl, by omega⟩
  obtain ⟨h, -⟩ := rounds_spec 63 h0 (by decide) fun _ _ => rfl
  have hdue := rounds_due 63 h0 (by decide) fun _ => rfl
  obtain ⟨hend, hturn⟩ := wrap_end h
  refine ⟨?_, (along_append _).mpr ⟨hdue, hend⟩, ?_⟩
  · intro e he
    rcases List.mem_append.mp he with he | he
    · exact rounds_ringOp 63 e he
    · exact (by decide : ∀ e ∈ ([.submit 0 ⟨1, eduOpFactorial, 0⟩, .submit 0 ⟨2, eduOpFactorial, 0⟩,
        .irq 1 0] : List Event), e.RingOp) e he
  · intro hall
    have hlast := hall.last
    rw [wrapRun, run_append] at hlast
    exact hturn hlast

end PcieDriver.Edu
