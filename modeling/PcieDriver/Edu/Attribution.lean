import PcieDriver.Edu.Alone

/-!
# Which interrupt completes which command

The handler gives every interrupt to the lowest slot in flight. It does not look at the status
bit, nor whether the command in that slot was kicked, nor whether a legacy ioctl is waiting.
-/

open Base

namespace PcieDriver.Edu

/-! ## The property and its condition -/

/-- Every entry was posted by an interrupt that the device raised for the entry's own command. -/
def Attributed (b : Board) : Prop :=
  ∀ (n : Nat) (p : Post) (js : List Job), b.sys.posted[n]? = some p → b.raised[n]? = some js →
    ∃ c, b.sys.claimed[p.num]? = some c ∧ ∃ j ∈ js, j.source = .ring c

/-- What the device computes for the request. -/
def expected (factorial : BitVec 32 → BitVec 32) (req : EduSubmitReq) : BitVec 32 :=
  if req.opcode = eduOpFactorial then factorial req.operand else 0

def Results (factorial : BitVec 32 → BitVec 32) (b : Board) : Prop :=
  ∀ p ∈ b.sys.posted, ∃ c, b.sys.claimed[p.num]? = some c ∧
    p.entry.tag = c.req.tag ∧ p.entry.result = expected factorial c.req

/-- Command `c` is in flight, and no slot below it is. -/
def Sys.Lowest (s : Sys) (c : Cmd) : Prop :=
  ∃ i, s.Holds i c ∧ ∀ k < i, s.dev.inflight k = 0

/-- If the handler takes the lock while a slot is in flight, the command in the lowest of them is
one that the device had finished when the handler acknowledged. -/
def LowestReported (b : Board) : BoardEvent → Prop
  | .irqPost => ∀ stat js, b.handler = some (stat, js) → inUse b.sys.dev.inflight ≠ ∅ →
      ∃ c, b.sys.Lowest c ∧ ∃ j ∈ js, j.source = .ring c
  | _ => True

/-- If that command is a factorial, `REG_FACT` still holds its result. Writes to the payload spare
the entries in flight. -/
def ResultFresh (b : Board) : BoardEvent → Prop
  | .irqPost => ∀ stat js c, b.handler = some (stat, js) → b.sys.Lowest c →
      c.req.opcode = eduOpFactorial → ∃ j, b.factBy = some j ∧ j.source = .ring c
  | e => ∀ e', b.seen e = some e' → SparesInflight b.sys e'

theorem lowest_iff {s : Sys} {c : Cmd} {i : Fin ringSize} (hfirst : firstInflight s.dev = some i) :
    s.Lowest c ↔ s.claimed[s.owner i]? = some c := by
  obtain ⟨hi, hbelow⟩ := firstInflight_some.mp hfirst
  constructor
  · rintro ⟨k, ⟨hk, hc⟩, hmin⟩
    have hle : ¬ k < i := fun hlt => hk (hbelow k hlt)
    have hge : ¬ i < k := fun hlt => hi (hmin i hlt)
    obtain rfl : k = i := le_antisymm (not_lt.mp hge) (not_lt.mp hle)
    exact hc
  · exact fun hc => ⟨i, ⟨hi, hc⟩, hbelow⟩

theorem Sys.Lowest.unique {s : Sys} {c c' : Cmd} (h : s.Lowest c) (h' : s.Lowest c') : c = c' := by
  obtain ⟨i, ⟨hi, hc⟩, hmin⟩ := h
  exact Option.some.inj (hc.symm.trans ((lowest_iff (firstInflight_some.mpr ⟨hi, hmin⟩)).mp h'))

theorem inUse_ne_empty {e : EduDev} {i : Fin ringSize} (hfirst : firstInflight e = some i) :
    inUse e.inflight ≠ ∅ := by
  rw [ne_eq, ← firstInflight_none, hfirst]
  exact Option.some_ne_none i

/-! ## What a step does to the posts -/

theorem getElem?_silent {s : Sys} {e : Event} (he : e.Silent) {n : Nat} {c : Cmd}
    (h : s.claimed[n]? = some c) : (step s e).claimed[n]? = some c := by
  generalize hs' : step s e = s'
  have heff : Effect s e s' := hs' ▸ step_effect s e
  cases heff with
  | reset | post => exact absurd he id
  | claim => exact getElem?_claim h
  | take | resetStats => exact h
  | payload _ _ _ _ hsame _ _ | quiet _ _ _ hsame _ _ => rw [hsame.claimed]; exact h

theorem getElem?_seen {b : Board} {e : BoardEvent} (h : ∀ e', b.seen e = some e' → e'.Silent)
    {n : Nat} {c : Cmd} (hc : b.sys.claimed[n]? = some c) :
    (b.driverStep e).claimed[n]? = some c :=
  driverStep_ind (P := fun s => s.claimed[n]? = some c) hc
    fun e' hseen => getElem?_silent (h e' hseen) hc

/-- The posts of a step: none are left, they are as before, or the handler has made one. -/
inductive Posting (b : Board) : BoardEvent → Board → Prop
  | cleared (e b') (hposted : b'.sys.posted = []) (hraised : b'.raised = []) : Posting b e b'
  | kept (e b') (hposted : b'.sys.posted = b.sys.posted) (hraised : b'.raised = b.raised)
      (hclaimed : ∀ (n : Nat) (c : Cmd), b.sys.claimed[n]? = some c → b'.sys.claimed[n]? = some c) :
      Posting b e b'
  | made (b' stat js i) (hhandler : b.handler = some (stat, js))
      (hfirst : firstInflight b.sys.dev = some i)
      (hposted : b'.sys.posted = b.sys.posted ++ [b.postOf i]) (hraised : b'.raised = b.raised ++ [js])
      (hclaimed : b'.sys.claimed = b.sys.claimed) : Posting b .irqPost b'

theorem posting {factorial : BitVec 32 → BitVec 32} {b : Board} (h : BoardInv factorial b)
    (e : BoardEvent) : Posting b e (boardStep factorial b e) := by
  generalize hb' : b.deviceStep factorial e = b'
  have heff : DeviceEffect factorial b e b' := hb' ▸ device_effect factorial b e
  rw [boardStep, hb']
  cases heff with
  | opened client => exact .cleared _ _ rfl rfl
  | quiet _ _ hsilent | begun _ _ _ _ hsilent _ =>
    exact .kept _ _ (posted_of_seen hsilent) rfl fun _ _ hc => getElem?_seen hsilent hc
  | finished j hj =>
    exact .kept _ _ rfl (finish_ends factorial b j).raised fun _ _ hc => hc
  | entered => exact .kept _ _ rfl rfl fun _ _ hc => hc
  | posted stat js hhandler =>
    have hstat := h.stat stat js hhandler
    cases hfirst : firstInflight b.sys.dev with
    | none =>
      rw [driverStep_idle hhandler hstat hfirst]
      exact .kept _ _ rfl rfl fun _ _ hc => hc
    | some i =>
      rw [driverStep_posts hhandler hstat hfirst]
      exact .made _ stat js i hhandler hfirst rfl rfl rfl

/-! ## Attribution -/

section
variable {factorial : BitVec 32 → BitVec 32} {b : Board} {e : BoardEvent}

theorem attributed_step (h : BoardInv factorial b) (hb : Attributed b) (he : LowestReported b e) :
    Attributed (boardStep factorial b e) := by
  generalize hb' : boardStep factorial b e = b'
  have hposting : Posting b e b' := hb' ▸ posting h e
  intro n p js hp hjs
  cases hposting with
  | cleared _ _ hposted _ => simp [hposted] at hp
  | kept _ _ hposted hraised hclaimed =>
    rw [hposted] at hp
    rw [hraised] at hjs
    obtain ⟨c, hc, hj⟩ := hb n p js hp hjs
    exact ⟨c, hclaimed _ _ hc, hj⟩
  | made _ stat js' i hhandler hfirst hposted hraised hclaimed =>
    rw [hposted] at hp
    rw [hraised] at hjs
    rw [hclaimed]
    rcases Nat.lt_trichotomy n b.sys.posted.length with hlt | rfl | hgt
    · rw [List.getElem?_append_left hlt] at hp
      rw [List.getElem?_append_left (by rw [h.raised]; exact hlt)] at hjs
      exact hb n p js hp hjs
    · rw [← h.raised] at hjs
      obtain rfl : b.postOf i = p := by simpa using hp
      obtain rfl : js' = js := by simpa using hjs
      obtain ⟨c, hlowest, hj⟩ := he stat js' hhandler (inUse_ne_empty hfirst)
      exact ⟨c, (lowest_iff hfirst).mp hlowest, hj⟩
    · rw [List.getElem?_eq_none (by simp; omega)] at hp
      cases hp

/-- A post that was not reported stays in the record. -/
theorem lowestReported_of_attributed (h : BoardInv factorial b)
    (hb : Attributed (boardStep factorial b e)) : LowestReported b e := by
  cases e with
  | driver | kick | finish | irqEnter => trivial
  | irqPost =>
    intro stat js hhandler huse
    have hstat := h.stat stat js hhandler
    obtain ⟨i, hfirst⟩ := Option.ne_none_iff_exists'.mp (fun hnone => huse (firstInflight_none.mp hnone))
    have hsys : (boardStep factorial b .irqPost).sys = b.sys.post i stat b.regFact :=
      driverStep_posts hhandler hstat hfirst
    have hraised : (boardStep factorial b .irqPost).raised = b.raised ++ [js] := by
      simp [boardStep, Board.deviceStep, Board.postStep, hhandler, hfirst]
    obtain ⟨c, hc, hj⟩ := hb b.sys.posted.length (b.postOf i) js
      (by rw [hsys]; simp [Sys.post, Board.postOf]) (by rw [hraised, ← h.raised]; simp)
    rw [hsys] at hc
    exact ⟨c, (lowest_iff hfirst).mpr hc, hj⟩

/-! ## Results -/

theorem expected_of_fresh (h : BoardInv factorial b) {i : Fin ringSize} {c : Cmd}
    (hcarries : (sqAt b.sys.dev.slab i).Carries c.req)
    (hfresh : c.req.opcode = eduOpFactorial → ∃ j, b.factBy = some j ∧ j.source = .ring c) :
    (b.postOf i).entry.result = expected factorial c.req := by
  simp only [Board.postOf, completionOf, expected, hcarries.2.1]
  split_ifs with hop
  · obtain ⟨j, hj, hsource⟩ := hfresh hop
    obtain ⟨⟨n, hwork, hfact⟩, hring⟩ := h.fact j hj
    have hn : Work.factorial n = .factorial c.req.operand := by
      rw [← hwork, hring c hsource, workOf, if_pos hop]
    rw [hfact, Work.factorial.inj hn]
  · rfl

theorem intact_driverStep (hin : Intact b.sys ∧ Echoes b.sys)
    (he : ∀ e', b.seen e = some e' → SparesInflight b.sys e') :
    Intact (b.driverStep e) ∧ Echoes (b.driverStep e) :=
  driverStep_ind (P := fun s => Intact s ∧ Echoes s) hin
    fun e' hseen => integrity_step hin (he e' hseen)

theorem ResultFresh.spares (he : ResultFresh b e) :
    ∀ e', b.seen e = some e' → SparesInflight b.sys e' := by
  cases e with
  | irqPost =>
    rintro e' h
    obtain ⟨-, -, rfl⟩ := Option.map_eq_some_iff.mp h
    exact fun hsome => absurd hsome (by simp [payloadOf])
  | _ => exact he

theorem results_step (h : BoardInv factorial b) (hin : Intact b.sys) (hb : Results factorial b)
    (he : ResultFresh b e) : Results factorial (boardStep factorial b e) := by
  generalize hb' : boardStep factorial b e = b'
  have hposting : Posting b e b' := hb' ▸ posting h e
  intro p hp
  cases hposting with
  | cleared _ _ hposted _ => simp [hposted] at hp
  | kept _ _ hposted _ hclaimed =>
    rw [hposted] at hp
    obtain ⟨c, hc, hrest⟩ := hb p hp
    exact ⟨c, hclaimed _ _ hc, hrest⟩
  | made _ stat js i hhandler hfirst hposted _ hclaimed =>
    rw [hposted, List.mem_append, List.mem_singleton] at hp
    rw [hclaimed]
    rcases hp with hp | rfl
    · exact hb p hp
    · obtain ⟨c, hc, hcarries⟩ := hin i (firstInflight_some.mp hfirst).1
      have hfresh := he stat js c hhandler ((lowest_iff hfirst).mpr hc)
      exact ⟨c, hc, hcarries.1, expected_of_fresh h hcarries hfresh⟩

/-! ## One command on the device -/

theorem lowestReported_of_alone (h : AloneInv b) : LowestReported b e := by
  cases e with
  | driver | kick | finish | irqEnter => trivial
  | irqPost =>
    intro stat js hhandler huse
    rcases h with h | ⟨c, h⟩
    · exact absurd h.1 huse
    · obtain ⟨i, hi, honly⟩ := h.slot
      refine ⟨c, ⟨i, hi, fun k hk => ?_⟩, h.handled stat js hhandler⟩
      by_contra hbusy
      exact hk.ne (honly k hbusy)

theorem spares_of_none {s : Sys} {e : Event} (h : inUse s.dev.inflight = ∅) :
    SparesInflight s e := by
  have hnone := (inUse_eq_empty _).mp h
  cases e with
  | dmaWrite bs => exact fun i _ hi => absurd (hnone i) hi
  | _ => exact fun _ i _ => hnone i

theorem resultFresh_of_alone (h : AloneInv b) (he : Alone b e) : ResultFresh b e := by
  cases e with
  | driver e =>
    intro e' hseen
    cases e with
    | dmaTest | wake | dmaWrite =>
      obtain rfl := Option.some.inj hseen
      exact spares_of_none he
    | irq => cases hseen
    | «open» | submit | pollCq | factorial | arm | timeout | setEventfd | resetStats =>
      obtain rfl := Option.some.inj hseen
      exact fun hsome => absurd hsome (by simp [payloadOf])
  | kick | finish | irqEnter =>
    intro e' hseen
    cases hseen
  | irqPost =>
    rintro stat js c' hhandler ⟨i, hi, -⟩ hop
    rcases h with h | ⟨c, h⟩
    · exact absurd ((inUse_eq_empty _).mp h.1 i) hi.1
    · obtain ⟨k, hk, honly⟩ := h.slot
      obtain rfl := honly i hi.1
      obtain rfl : c = c' := Option.some.inj (hk.2.symm.trans hi.2)
      exact h.fact hop (.inr (by simp [hhandler]))

theorem always_alone (hinv : BoardInv factorial b) (h : AloneInv b) {evs : List BoardEvent}
    (hevs : Along (boardStep factorial) Alone b evs) :
    Always (boardStep factorial) (fun b => BoardInv factorial b ∧ AloneInv b) b evs :=
  Always.of_step (fun _ e h he => ⟨h.1.step e, h.2.step h.1 he⟩) ⟨hinv, h⟩ hevs

theorem reported_and_fresh (hinv : BoardInv factorial b) (h : AloneInv b) {evs : List BoardEvent}
    (hevs : Along (boardStep factorial) Alone b evs) :
    Along (boardStep factorial) LowestReported b evs ∧
      Along (boardStep factorial) ResultFresh b evs := by
  have hall := always_alone hinv h hevs
  exact ⟨Along.of_always hall hevs fun _ _ h _ => lowestReported_of_alone h.2,
    Along.of_always hall hevs fun _ _ h he => resultFresh_of_alone h.2 he⟩

end

/-- **Every completion is attributed to its own interrupt** in a run exactly if the lowest slot in
flight is the one reported whenever the handler takes the lock. The results are right if they are
still in `REG_FACT` then. Both are so if the commands come one at a time. -/
theorem completions_attributed (factorial : BitVec 32 → BitVec 32) (d : EduDev) (fact : BitVec 32)
    (evs : List BoardEvent) :
    (Always (boardStep factorial) Attributed (.powered d fact) evs ↔
        Along (boardStep factorial) LowestReported (.powered d fact) evs) ∧
      (Along (boardStep factorial) ResultFresh (.powered d fact) evs →
        Always (boardStep factorial) (Results factorial) (.powered d fact) evs) ∧
      (Along (boardStep factorial) Alone (.powered d fact) evs →
        Along (boardStep factorial) LowestReported (.powered d fact) evs ∧
        Along (boardStep factorial) ResultFresh (.powered d fact) evs) := by
  have hinv : Always (boardStep factorial) (BoardInv factorial) (.powered d fact) evs :=
    Always.of_inv (fun _ e h => h.step e) (BoardInv.powered d fact)
  have hattributed : Attributed (.powered d fact) := by simp [Attributed, Board.powered, start]
  have hintact : Intact (start d) ∧ Echoes (start d) :=
    ⟨fun i hi => absurd rfl hi, by simp [Echoes, start]⟩
  have hresults : Results factorial (.powered d fact) := by simp [Results, Board.powered, start]
  refine ⟨⟨fun hall => ?_, fun hcond => ?_⟩, fun hcond => ?_, fun hcond => ?_⟩
  · exact Along.of_always hinv hall.steps fun b e h hb => lowestReported_of_attributed h hb.2
  · have hboth : Always (boardStep factorial) (fun b => BoardInv factorial b ∧ Attributed b)
        (.powered d fact) evs :=
      Always.of_step (fun _ e h he => ⟨h.1.step e, attributed_step h.1 h.2 he⟩)
        ⟨BoardInv.powered d fact, hattributed⟩ hcond
    exact hboth.mono fun _ h => h.2
  · have hboth : Always (boardStep factorial)
        (fun b => BoardInv factorial b ∧ (Intact b.sys ∧ Echoes b.sys) ∧ Results factorial b)
        (.powered d fact) evs :=
      Always.of_step
        (fun _ e h he => ⟨h.1.step e, intact_driverStep h.2.1 he.spares,
          results_step h.1 h.2.1.1 h.2.2 he⟩)
        ⟨BoardInv.powered d fact, hintact, hresults⟩ hcond
    exact hboth.mono fun _ h => h.2.2
  · exact reported_and_fresh (.powered d fact) (.powered d fact) hcond

/-- One command from its claim to its completion, with nothing else on the device. -/
theorem completions_attributed_alone :
    let c : Cmd := ⟨0, 0, ⟨7, eduOpFactorial, 5⟩⟩
    let evs : List BoardEvent := [.driver (.submit 0 c.req), .kick c,
      .finish ⟨0, .ring c, .factorial 5⟩, .irqEnter, .irqPost]
    let b := Board.powered freshDev 0
    Along (boardStep factorial32) Alone b evs ∧
      Along (boardStep factorial32) LowestReported b evs ∧
      Along (boardStep factorial32) ResultFresh b evs ∧
      Always (boardStep factorial32) Attributed b evs ∧
      Always (boardStep factorial32) (Results factorial32) b evs ∧
      (eduPollCq (run (boardStep factorial32) b evs).sys.dev).2 = .ok ⟨7, 0, 120⟩ := by
  intro c evs b
  have halone : Along (boardStep factorial32) Alone b evs :=
    ⟨⟨by decide, by decide, rfl, rfl, rfl, rfl⟩, trivial, trivial, trivial, trivial, trivial⟩
  obtain ⟨hattributed, hresults, hconds⟩ := completions_attributed factorial32 freshDev 0 evs
  obtain ⟨hreported, hfresh⟩ := hconds halone
  exact ⟨halone, hreported, hfresh, hattributed.mpr hreported, hresults hfresh, by decide⟩

/-- A legacy factorial of 6 ends while a submit has claimed slot 0 and not kicked yet. The submit
gets the interrupt, and 720 for its factorial of 5. -/
theorem legacy_interrupt_completes_submit :
    let evs : List BoardEvent := [.driver (.factorial 6), .driver .arm,
      .driver (.submit 0 ⟨7, eduOpFactorial, 5⟩), .finish ⟨0, .legacy, .factorial 6⟩, .irqEnter,
      .irqPost]
    let b := run (boardStep factorial32) (.powered freshDev 0) evs
    ¬ Attributed b ∧ ¬ Results factorial32 b ∧
      b.unkicked = [⟨0, 0, ⟨7, eduOpFactorial, 5⟩⟩] ∧
      (eduPollCq b.sys.dev).2 = .ok ⟨7, 0, 720⟩ := by
  intro evs b
  have hposted : b.sys.posted[0]? = some ⟨0, ⟨7, 0, 0, 720, 0⟩, 720⟩ := by decide
  have hclaimed : b.sys.claimed[0]? = some ⟨0, 0, ⟨7, eduOpFactorial, 5⟩⟩ := by decide
  refine ⟨fun h => ?_, fun h => ?_, by decide, by decide⟩
  · obtain ⟨c, -, j, hj, hsource⟩ := h 0 _ [⟨0, .legacy, .factorial 6⟩] hposted (by decide)
    obtain rfl := List.mem_singleton.mp hj
    cases hsource
  · obtain ⟨c, hc, -, hresult⟩ := h _ (List.mem_of_getElem? hposted)
    obtain rfl := Option.some.inj (hclaimed.symm.trans hc)
    exact absurd hresult (by decide)

end PcieDriver.Edu
