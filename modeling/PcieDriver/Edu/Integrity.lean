import PcieDriver.Edu.Commands

/-!
# The entry of a command in flight

The handler reads the tag and the opcode back from the slab. Only the payload of the legacy DMA
test writes over entries, and only over the first four.
-/

open Base

namespace PcieDriver.Edu

def SqEntry.Carries (e : SqEntry) (req : EduSubmitReq) : Prop :=
  e.tag = req.tag ∧ e.opcode = req.opcode ∧ e.operand = req.operand

def SqEntry.SameRequest (a b : SqEntry) : Prop :=
  a.tag = b.tag ∧ a.opcode = b.opcode ∧ a.operand = b.operand

instance (a b : SqEntry) : Decidable (a.SameRequest b) := inferInstanceAs (Decidable (_ ∧ _ ∧ _))

theorem SqEntry.SameRequest.carries {a b : SqEntry} {req : EduSubmitReq} (h : a.SameRequest b)
    (hb : b.Carries req) : a.Carries req :=
  ⟨h.1.trans hb.1, h.2.1.trans hb.2.1, h.2.2.trans hb.2.2⟩

/-- Every slot in flight still carries the request that claimed it. -/
def Intact (s : Sys) : Prop :=
  ∀ i, s.dev.inflight i ≠ 0 →
    ∃ c, s.claimed[s.owner i]? = some c ∧ (sqAt s.dev.slab i).Carries c.req

def Echoes (s : Sys) : Prop :=
  ∀ p ∈ s.posted, ∃ c, s.claimed[p.num]? = some c ∧ p.entry.tag = c.req.tag

/-- A write to the payload finds slots 0 to 3 free. What the device itself writes may also
repeat the requests that are there. -/
def SparesInflight (s : Sys) (e : Event) : Prop :=
  match e with
  | .dmaWrite bs => ∀ i : Fin ringSize, i.val < 4 → s.dev.inflight i ≠ 0 →
      (sqAt (setPayload s.dev.slab bs) i).SameRequest (sqAt s.dev.slab i)
  | e => (payloadOf s e).isSome → ∀ i : Fin ringSize, i.val < 4 → s.dev.inflight i = 0

theorem SparesInflight.same {s : Sys} {e : Event} {bs : List Byte} (h : SparesInflight s e)
    (hbs : payloadOf s e = some bs) {i : Fin ringSize} (hi : s.dev.inflight i ≠ 0) :
    (sqAt (setPayload s.dev.slab bs) i).SameRequest (sqAt s.dev.slab i) := by
  by_cases hlow : i.val < 4
  · cases e with
    | dmaWrite bs' =>
      obtain rfl : bs' = bs := by simpa [payloadOf] using hbs
      exact h i hlow hi
    | _ => exact absurd (h (by rw [hbs]; rfl) i hlow) hi
  · rw [sqAt_setPayload_high _ _ (by omega)]
    exact ⟨rfl, rfl, rfl⟩

/-! ## Steps that spare the entries in flight -/

section
variable {s s' : Sys}

theorem getElem?_claim {client : Nat} {req : EduSubmitReq} {n : Nat} {c : Cmd}
    (h : s.claimed[n]? = some c) : (s.claim client req).claimed[n]? = some c := by
  obtain ⟨hn, -⟩ := List.getElem?_eq_some_iff.mp h
  simp only [Sys.claim]
  rw [List.getElem?_append_left hn, h]

theorem intact_claim (h : Intact s) (client : Nat) (req : EduSubmitReq) :
    Intact (s.claim client req) := by
  intro i hi
  by_cases hslot : i = slotOf s.dev.sqTail
  · subst hslot
    refine ⟨⟨s.calls, client, req⟩, by simp [Sys.claim], ?_⟩
    simp only [Sys.claim, claimSlot, sqAt_setSq_same]
    exact ⟨rfl, rfl, rfl⟩
  · rw [(OwnerInv.claim_other hslot).1] at hi
    obtain ⟨c, hc, hcarries⟩ := h i hi
    refine ⟨c, ?_, ?_⟩
    · rw [(OwnerInv.claim_other hslot).2]
      exact getElem?_claim hc
    · have hne : (slotOf s.dev.sqTail).val ≠ i.val := fun heq => hslot (Fin.ext heq.symm)
      simpa only [Sys.claim, claimSlot, sqAt_setSq_ne _ hne] using hcarries

theorem intact_post (h : Intact s) (i : Fin ringSize) (stat fact : BitVec 32) :
    Intact (s.post i stat fact) := by
  intro j hj
  obtain ⟨c, hc, hcarries⟩ := h j (OwnerInv.post_other hj).2
  refine ⟨c, hc, ?_⟩
  simp only [Sys.post, postCompletion, acknowledged]
  rw [sqAt_setCq _ j.isLt]
  exact hcarries

theorem echoes_post (h : Echoes s) (hin : Intact s) {i : Fin ringSize} (stat fact : BitVec 32)
    (hi : s.dev.inflight i ≠ 0) : Echoes (s.post i stat fact) := by
  intro p hp
  simp only [Sys.post, List.mem_append, List.mem_singleton] at hp
  rcases hp with hp | rfl
  · exact h p hp
  · obtain ⟨c, hc, hcarries⟩ := hin i hi
    exact ⟨c, hc, hcarries.1⟩

theorem intact_same (h : Intact s) (hsame : SameRing s s')
    (hsq : ∀ i : Fin ringSize, s.dev.inflight i ≠ 0 →
      (sqAt s'.dev.slab i).SameRequest (sqAt s.dev.slab i)) : Intact s' := by
  intro i hi
  rw [hsame.inflight] at hi
  obtain ⟨c, hc, hcarries⟩ := h i hi
  exact ⟨c, by rw [hsame.claimed, hsame.owner]; exact hc, (hsq i hi).carries hcarries⟩

theorem echoes_same (h : Echoes s) (hsame : SameRing s s') : Echoes s' := by
  rw [Echoes, hsame.posted, hsame.claimed]
  exact h

theorem integrity_step (h : Intact s ∧ Echoes s) {e : Event} (he : SparesInflight s e) :
    Intact (step s e) ∧ Echoes (step s e) := by
  obtain ⟨hin, hecho⟩ := h
  generalize hs' : Edu.step s e = s'
  have heff : Effect s e s' := hs' ▸ step_effect s e
  cases heff with
  | reset client => exact ⟨fun i hi => absurd rfl hi, by simp [Echoes, Sys.reset]⟩
  | claim client req _ =>
    refine ⟨intact_claim hin client req, fun p hp => ?_⟩
    obtain ⟨c, hc, htag⟩ := hecho p hp
    exact ⟨c, getElem?_claim hc, htag⟩
  | post stat fact i _ hfirst =>
    exact ⟨intact_post hin i stat fact,
      echoes_post hecho hin stat fact (firstInflight_some.mp hfirst).1⟩
  | take | resetStats => exact ⟨hin, hecho⟩
  | payload _ bs _ hbs hsame _ hslab =>
    exact ⟨intact_same hin hsame fun i hi => hslab ▸ he.same hbs hi, echoes_same hecho hsame⟩
  | quiet _ _ _ hsame _ hslab =>
    exact ⟨intact_same hin hsame fun i _ => by rw [hslab]; exact ⟨rfl, rfl, rfl⟩,
      echoes_same hecho hsame⟩

end

/-! ## Writes that do not spare them -/

def Event.KnownOpcode : Event → Prop
  | .submit _ req => ValidOpcode req
  | _ => True

instance : ∀ e : Event, Decidable e.KnownOpcode
  | .submit _ req => inferInstanceAs (Decidable (ValidOpcode req))
  | .open _ | .irq _ _ | .pollCq _ | .factorial _ | .dmaTest | .arm | .wake _ | .timeout
  | .dmaWrite _ | .setEventfd _ | .resetStats => .isTrue trivial

def KnownClaims (s : Sys) : Prop := ∀ c ∈ s.claimed, ValidOpcode c.req

theorem knownClaims_step {s : Sys} (h : KnownClaims s) {e : Event} (he : e.KnownOpcode) :
    KnownClaims (step s e) := by
  generalize hs' : Edu.step s e = s'
  have heff : Effect s e s' := hs' ▸ step_effect s e
  cases heff with
  | reset => simp [KnownClaims, Sys.reset]
  | claim client req _ =>
    intro c hc
    simp only [Sys.claim, List.mem_append, List.mem_singleton] at hc
    rcases hc with hc | rfl
    · exact h c hc
    · exact he
  | post | take | resetStats => exact h
  | payload _ _ _ _ hsame _ _ | quiet _ _ _ hsame _ _ => rw [KnownClaims, hsame.claimed]; exact h

theorem payload_opcode_unknown {bs : List Byte} (hbs : bs = pattern ∨ bs = zeroPayload) {i : Nat}
    (hi : i < 4) (slab : Mem) :
    (sqAt (setPayload slab bs) i).opcode ≠ eduOpFactorial ∧
      (sqAt (setPayload slab bs) i).opcode ≠ eduOpDmaTest := by
  rcases hbs with rfl | rfl
  · rw [sqAt_setPayload_low _ _ pattern_length hi]
    exact (by decide : ∀ i < 4, (SqEntry.ofBytes ((pattern.drop (16 * i)).take 16)).opcode ≠
      eduOpFactorial ∧ (SqEntry.ofBytes ((pattern.drop (16 * i)).take 16)).opcode ≠ eduOpDmaTest) i hi
  · rw [sqAt_setPayload_low _ _ (by decide) hi]
    exact (by decide : ∀ i < 4, (SqEntry.ofBytes ((zeroPayload.drop (16 * i)).take 16)).opcode ≠
      eduOpFactorial ∧ (SqEntry.ofBytes ((zeroPayload.drop (16 * i)).take 16)).opcode ≠
      eduOpDmaTest) i hi

theorem payloadOf_driver {s : Sys} {e : Event} {bs : List Byte} (h : payloadOf s e = some bs)
    (he : ∀ bs', e ≠ .dmaWrite bs') : bs = pattern ∨ bs = zeroPayload := by
  cases e with
  | dmaWrite bs' => exact absurd rfl (he bs')
  | dmaTest => exact .inl (by simp only [payloadOf, Option.ite_none_right_eq_some] at h; simpa using h.2.symm)
  | wake => exact .inr (by simp only [payloadOf, Option.ite_none_right_eq_some] at h; simpa using h.2.symm)
  | _ => simp [payloadOf] at h

theorem not_intact_of_driver_write {s : Sys} (hknown : KnownClaims s) {e : Event} {bs : List Byte}
    (hbs : payloadOf s e = some bs) (he : ∀ bs', e ≠ .dmaWrite bs') {i : Fin ringSize}
    (hlow : i.val < 4) (hi : s.dev.inflight i ≠ 0) : ¬ Intact (step s e) := by
  intro h'
  obtain ⟨hsame, hslab⟩ := step_payload hbs
  obtain ⟨c, hc, -, hop, -⟩ := h' i (by rw [hsame.inflight]; exact hi)
  rw [hsame.claimed] at hc
  rw [hslab] at hop
  have hunknown := payload_opcode_unknown (payloadOf_driver hbs he) hlow s.dev.slab
  rw [hop] at hunknown
  exact (hknown c (List.mem_of_getElem? hc)).elim hunknown.1 hunknown.2

theorem spares_of_intact {s : Sys} (hknown : KnownClaims s) {e : Event} (h : Intact s)
    (h' : Intact (step s e)) : SparesInflight s e := by
  cases e with
  | dmaWrite bs =>
    intro i _ hi
    obtain ⟨c, hc, htag, hop, hval⟩ := h i hi
    obtain ⟨c', hc', htag', hop', hval'⟩ := h' i hi
    obtain rfl : c = c' := by
      have := hc.symm.trans hc'
      simpa using this
    exact ⟨htag'.trans htag.symm, hop'.trans hop.symm, hval'.trans hval.symm⟩
  | dmaTest | wake =>
    intro hsome i hlow
    obtain ⟨bs, hbs⟩ := Option.isSome_iff_exists.mp hsome
    by_contra hi
    exact not_intact_of_driver_write hknown hbs (by simp) hlow hi h'
  | _ =>
    intro hsome
    simp [payloadOf] at hsome

/-- **The entries in flight stay intact** in a run exactly if every write to the payload spares
them. -/
theorem entries_intact_iff (d : EduDev) (evs : List Event) (h : ∀ e ∈ evs, e.KnownOpcode) :
    Always step (fun s => Intact s ∧ Echoes s) (start d) evs ↔
      Along step SparesInflight (start d) evs := by
  have hstart : Intact (start d) ∧ Echoes (start d) :=
    ⟨fun i hi => absurd rfl hi, by simp [Echoes, start]⟩
  have hops : Along step (fun _ e => e.KnownOpcode) (start d) evs :=
    along_of_forall fun _ e he => h e he
  have hknown : Always step KnownClaims (start d) evs :=
    Always.of_step (fun _ _ hs he => knownClaims_step hs he) (by simp [KnownClaims, start]) hops
  constructor
  · intro hall
    exact Along.of_always hknown hall.steps fun s e hs he => spares_of_intact hs he.1.1 he.2.1
  · exact Always.of_step (fun _ _ hs he => integrity_step hs he) hstart

/-- A whole first leg of the DMA test before a command is safe. -/
theorem entries_intact_after_leg :
    let evs : List Event := [.dmaTest, .arm, .irq 0x100 0, .wake 0, .submit 0 ⟨7, eduOpFactorial, 5⟩]
    (∀ e ∈ evs, e.KnownOpcode) ∧ Always step (fun s => Intact s ∧ Echoes s) (start freshDev) evs := by
  intro evs
  have hops : ∀ e ∈ evs, e.KnownOpcode := by decide
  have hspare : Along step SparesInflight (start freshDev) evs :=
    ⟨fun _ _ _ => rfl, nofun, nofun, fun _ _ _ => rfl, nofun, trivial⟩
  exact ⟨hops, (entries_intact_iff freshDev evs hops).mpr hspare⟩

/-- A DMA test starts while slot 0 is in flight, and the completion has a tag nobody gave. -/
theorem dma_test_overwrites_entry :
    let evs : List Event := [.submit 0 ⟨7, eduOpFactorial, 5⟩, .dmaTest, .irq 1 120]
    (∀ e ∈ evs, e.KnownOpcode) ∧
      ¬ Always step (fun s => Intact s ∧ Echoes s) (start freshDev) evs ∧
      (eduPollCq (run step (start freshDev) evs).dev).2 = .ok ⟨0x4445, 0, 0⟩ := by
  intro evs
  refine ⟨by decide, fun hall => ?_, by decide⟩
  have hecho : Echoes (run step (start freshDev) evs) := hall.last.2
  obtain ⟨c, hc, htag⟩ := hecho ⟨0, ⟨0x4445, 0, 0, 0, 0⟩, 120⟩ (by decide)
  obtain rfl : (⟨0, 0, ⟨7, eduOpFactorial, 5⟩⟩ : Cmd) = c := by
    have : (run step (start freshDev) evs).claimed[0]? = some ⟨0, 0, ⟨7, eduOpFactorial, 5⟩⟩ := rfl
    simpa [this] using hc
  exact absurd htag (by decide)

end PcieDriver.Edu
