import PcieDriver.Hw.System

/-!
# A command in flight

There is one buffer, and nothing keeps a `SEND_CMD` from filling it while the device still works on
the command before.
-/

open Base
open PcieDriver.Ring (ProtoPcieCommand RegWrite cmdLength cmdBytes regCtrl regDoorbell regDmaLo
  regDmaHi regDmaLen ctrlReset ctrlStart)
open PcieDriver.Qemu (ProtoPcieState protoPcieMmioWrite timerExpires)

namespace PcieDriver.Hw

/-! ## The property and the condition -/

/-- The registers that describe a command to the device. -/
def cmdRegs : List Nat := [regDmaLo, regDmaHi, regDmaLen, regDoorbell]

structure Unchanged (s s' : Sys) : Prop where
  dmaBuf : s'.core.dmaBuf = s.core.dmaBuf
  dmaLen : s'.core.dmaLen = s.core.dmaLen
  regs : ∀ r ∈ cmdRegs, s'.regs r = s.regs r
  opcode : s'.dev.lastOpcode = s.dev.lastOpcode
  length : s'.dev.dmaLen = s.dev.dmaLen

/-- What the device finds is the command. -/
structure Holds (s : Sys) (c : ProtoPcieCommand) : Prop where
  bytes : s.core.dmaBuf.get 0 s.dev.dmaLen.toNat = cmdBytes c
  dmaLen : s.core.dmaLen = (cmdLength c).setWidth 64
  lo : s.regs regDmaLo = s.core.dmaHandle.setWidth 32
  hi : s.regs regDmaHi = (s.core.dmaHandle >>> 32).setWidth 32
  length : s.dev.dmaLen = cmdLength c
  opcode : s.dev.lastOpcode = c.opcode

/-- No step changes anything under a command in flight. -/
def Stable (s : Sys) (e : Event) : Prop := s.inFlight ≠ none → Unchanged s (step s e)

/-- The device completes the command that it was given. -/
def CompletesIt (s : Sys) (e : Event) : Prop :=
  e = .expire → s.dev.timer = true → ∀ c, s.inFlight = some c → Holds s c

structure SameCommand (c c' : ProtoPcieCommand) : Prop where
  opcode : c.opcode = c'.opcode
  bytes : cmdBytes c = cmdBytes c'

/-- A command that begins while another is in flight is that command again. -/
def NoOverlap (s : Sys) : Event → Prop
  | .begin (.send c) => s.call = .idle → ∀ c', s.inFlight = some c' → SameCommand c c'
  | _ => True

/-! ## The invariant -/

/-- The writes before the start. -/
def settings (dmaHandle : BitVec 64) (c : ProtoPcieCommand) : List RegWrite :=
  [⟨regDmaLo, dmaHandle.setWidth 32⟩, ⟨regDmaHi, (dmaHandle >>> 32).setWidth 32⟩,
    ⟨regDmaLen, cmdLength c⟩, ⟨regDoorbell, c.opcode⟩]

structure Loaded (s : Sys) (c : ProtoPcieCommand) : Prop where
  bytes : s.core.dmaBuf.get 0 (cmdLength c).toNat = cmdBytes c
  dmaLen : s.core.dmaLen = (cmdLength c).setWidth 64

/-- The first `n` of the settings are in the registers. -/
def Written (s : Sys) (c : ProtoPcieCommand) (n : Nat) : Prop :=
  ∀ w ∈ (settings s.core.dmaHandle c).take n, s.regs w.reg = w.value

structure Settled (s : Sys) : Prop where
  opcode : s.dev.lastOpcode = s.regs regDoorbell
  length : s.dev.dmaLen = s.regs regDmaLen
  sending : ∀ c n, s.call = .writing (.send c) n → Loaded s c ∧ Written s c n
  flight : ∀ c, s.inFlight = some c → Loaded s c ∧ Written s c 4
  same : ∀ c n c', s.call = .writing (.send c) n → s.inFlight = some c' → SameCommand c c'

theorem settled_ready (dmaBuf : Mem) (dmaHandle : BitVec 64) : Settled (ready dmaBuf dmaHandle) where
  opcode := rfl
  length := rfl
  sending := fun _ _ h => by cases h
  flight := fun _ h => by cases h
  same := fun _ _ _ h => by cases h

section
variable {s s' : Sys} {c c' : ProtoPcieCommand}

theorem SameCommand.refl (c : ProtoPcieCommand) : SameCommand c c := ⟨rfl, rfl⟩

theorem SameCommand.length (h : SameCommand c c') : cmdLength c = cmdLength c' := by
  apply BitVec.eq_of_toNat_eq
  rw [← Ring.cmdBytes_length, ← Ring.cmdBytes_length, h.bytes]

theorem SameCommand.settings (h : SameCommand c c') (dmaHandle : BitVec 64) :
    settings dmaHandle c = settings dmaHandle c' := by
  simp only [Hw.settings, h.length, h.opcode]

theorem settings_map (dmaHandle : BitVec 64) (c : ProtoPcieCommand) :
    (settings dmaHandle c).map RegWrite.reg = cmdRegs := rfl

theorem settings_regs {dmaHandle : BitVec 64} {w : RegWrite} (h : w ∈ settings dmaHandle c) :
    w.reg ∈ cmdRegs := by
  rw [← settings_map dmaHandle c]
  exact List.mem_map_of_mem h

theorem written_all :
    Written s c 4 ↔ s.regs regDmaLo = s.core.dmaHandle.setWidth 32 ∧
      s.regs regDmaHi = (s.core.dmaHandle >>> 32).setWidth 32 ∧
      s.regs regDmaLen = cmdLength c ∧ s.regs regDoorbell = c.opcode := by
  have htake : (settings s.core.dmaHandle c).take 4 = settings s.core.dmaHandle c := rfl
  rw [Written, htake, settings]
  simp only [List.forall_mem_cons, List.not_mem_nil, false_imp_iff, implies_true, and_true]

theorem Settled.holds (h : Settled s) (hflight : s.inFlight = some c) : Holds s c := by
  obtain ⟨hloaded, hwritten⟩ := h.flight c hflight
  obtain ⟨hlo, hhi, hlen, hopcode⟩ := written_all.mp hwritten
  have hlength : s.dev.dmaLen = cmdLength c := h.length.trans hlen
  exact ⟨by rw [hlength, hloaded.bytes], hloaded.dmaLen, hlo, hhi, hlength, h.opcode.trans hopcode⟩

/-! ## Steps that do not touch a command -/

/-- The step of the timer, of the handler or of the call after its writes. -/
structure Quiet (s s' : Sys) : Prop extends Unchanged s s' where
  handle : s'.core.dmaHandle = s.core.dmaHandle
  inFlight : s'.inFlight = s.inFlight ∨ s'.inFlight = none
  call : s'.call = s.call ∨ ∀ c n, s'.call ≠ .writing (.send c) n

theorem Written.congr {n : Nat} (h : Written s c n) (hhandle : s'.core.dmaHandle = s.core.dmaHandle)
    (hregs : ∀ r ∈ cmdRegs, s'.regs r = s.regs r) : Written s' c n := by
  intro w hw
  rw [hhandle] at hw
  rw [hregs _ (settings_regs (List.mem_of_mem_take hw))]
  exact h w hw

theorem Loaded.congr (h : Loaded s c) (hbuf : s'.core.dmaBuf = s.core.dmaBuf)
    (hlen : s'.core.dmaLen = s.core.dmaLen) : Loaded s' c :=
  ⟨by rw [hbuf, h.bytes], by rw [hlen, h.dmaLen]⟩

theorem Settled.quiet (h : Settled s) (hquiet : Quiet s s') : Settled s' := by
  have hsame {c n} (hcall : s'.call = .writing (.send c) n) : s.call = .writing (.send c) n := by
    rcases hquiet.call with heq | hne
    · rw [← heq, hcall]
    · exact absurd hcall (hne c n)
  have hflight {c} (hsome : s'.inFlight = some c) : s.inFlight = some c := by
    rcases hquiet.inFlight with heq | hnone
    · rw [← heq, hsome]
    · rw [hnone] at hsome
      cases hsome
  constructor
  · rw [hquiet.opcode, hquiet.regs _ (by decide), h.opcode]
  · rw [hquiet.length, hquiet.regs _ (by decide), h.length]
  · intro c n hcall
    obtain ⟨hloaded, hwritten⟩ := h.sending c n (hsame hcall)
    exact ⟨hloaded.congr hquiet.dmaBuf hquiet.dmaLen, hwritten.congr hquiet.handle hquiet.regs⟩
  · intro c hsome
    obtain ⟨hloaded, hwritten⟩ := h.flight c (hflight hsome)
    exact ⟨hloaded.congr hquiet.dmaBuf hquiet.dmaLen, hwritten.congr hquiet.handle hquiet.regs⟩
  · intro c n c' hcall hsome
    exact h.same c n c' (hsame hcall) (hflight hsome)

theorem Quiet.refl (s : Sys) : Quiet s s :=
  ⟨⟨rfl, rfl, fun _ _ => rfl, rfl, rfl⟩, rfl, .inl rfl, .inl rfl⟩

theorem mmio_other (dev : ProtoPcieState) {w : RegWrite} (h : w.reg ∉ cmdRegs) :
    (protoPcieMmioWrite dev w).lastOpcode = dev.lastOpcode ∧
      (protoPcieMmioWrite dev w).dmaLen = dev.dmaLen := by
  simp only [cmdRegs, List.mem_cons, List.not_mem_nil, or_false, not_or] at h
  rw [protoPcieMmioWrite, if_neg h.2.2.2, if_neg h.2.2.1]
  unfold Qemu.protoPcieLowerIrq
  split_ifs <;> exact ⟨rfl, rfl⟩

theorem unchanged_busWrite (s : Sys) {w : RegWrite} (h : w.reg ∉ cmdRegs) :
    Unchanged s (s.busWrite w) := by
  obtain ⟨hopcode, hlength⟩ := mmio_other s.dev h
  refine ⟨rfl, rfl, fun r hr => ?_, hopcode, hlength⟩
  exact Function.update_of_ne (ne_of_mem_of_not_mem hr h) _ _

theorem quiet_expire (s : Sys) : Quiet s { s with dev := timerExpires s.dev } := by
  unfold timerExpires
  split_ifs <;> exact ⟨⟨rfl, rfl, fun _ _ => rfl, rfl, rfl⟩, rfl, .inl rfl, .inl rfl⟩

theorem quiet_read (s : Sys) (handler : HandlerPc) (fresh p : Bool) :
    Quiet s { s with handler := handler, fresh := fresh, inFlight := if p then none else s.inFlight } := by
  refine ⟨⟨rfl, rfl, fun _ _ => rfl, rfl, rfl⟩, rfl, ?_, .inl rfl⟩
  cases p with
  | true => exact .inr rfl
  | false => exact .inl rfl

theorem quiet_ack (s : Sys) (v : BitVec 32) (handler : HandlerPc) :
    Quiet s { s.busWrite ⟨Qemu.regIrqAck, v⟩ with handler := handler } := by
  obtain ⟨hbuf, hlen, hregs, hopcode, hlength⟩ :=
    unchanged_busWrite s (w := ⟨_, v⟩) (by decide : Qemu.regIrqAck ∉ cmdRegs)
  exact ⟨⟨hbuf, hlen, hregs, hopcode, hlength⟩, rfl, .inl rfl, .inl rfl⟩

theorem quiet_reset (s : Sys) (n : Nat) (v : BitVec 32) :
    Quiet s (s.callWrite .reset n ⟨regCtrl, v⟩) := by
  obtain ⟨hbuf, hlen, hregs, hopcode, hlength⟩ :=
    unchanged_busWrite s (w := ⟨_, v⟩) (by decide : regCtrl ∉ cmdRegs)
  exact ⟨⟨hbuf, hlen, hregs, hopcode, hlength⟩, rfl, .inr rfl, .inr fun _ _ h => by cases h⟩

/-! ## The steps of a command -/

theorem Settled.refill (h : Settled s) (hflight : s.inFlight = some c') (hsame : SameCommand c c') :
    (s.begin (.send c)).core.dmaBuf = s.core.dmaBuf ∧
      (s.begin (.send c)).core.dmaLen = s.core.dmaLen := by
  obtain ⟨hbytes, hlen⟩ := (h.flight c' hflight).1
  have hput : (s.begin (.send c)).core.dmaBuf = s.core.dmaBuf.put 0 (cmdBytes c) := rfl
  have hset : (s.begin (.send c)).core.dmaLen = (cmdLength c).setWidth 64 := rfl
  rw [hput, hset, hsame.bytes, ← hbytes, Mem.put_get_same, hsame.length, hlen]
  exact ⟨rfl, rfl⟩

theorem settled_begin (h : Settled s) (hno : ∀ c', s.inFlight = some c' → SameCommand c c') :
    Settled (s.begin (.send c)) ∧ (s.inFlight ≠ none → Unchanged s (s.begin (.send c))) := by
  have hloaded : Loaded (s.begin (.send c)) c := by
    refine ⟨?_, rfl⟩
    rw [← Ring.cmdBytes_length]
    exact Mem.get_put_same _ _ _
  constructor
  · refine ⟨h.opcode, h.length, ?_, ?_, ?_⟩
    · intro c' n hcall
      obtain ⟨rfl, rfl⟩ : c = c' ∧ 0 = n := by
        cases hcall
        exact ⟨rfl, rfl⟩
      refine ⟨hloaded, fun w hw => ?_⟩
      rw [List.take_zero] at hw
      cases hw
    · intro c' hflight
      obtain ⟨hloaded', hwritten⟩ := h.flight c' hflight
      obtain ⟨hsamebuf, hsamelen⟩ := h.refill hflight (hno c' hflight)
      exact ⟨hloaded'.congr hsamebuf hsamelen, hwritten.congr rfl fun _ _ => rfl⟩
    · intro c' n c'' hcall hflight
      obtain rfl : c = c' := by
        cases hcall
        rfl
      exact hno c'' hflight
  · intro hsome
    obtain ⟨c', hflight⟩ := Option.ne_none_iff_exists'.mp hsome
    obtain ⟨hsamebuf, hsamelen⟩ := h.refill hflight (hno c' hflight)
    exact ⟨hsamebuf, hsamelen, fun _ _ => rfl, rfl, rfl⟩

theorem send_write {k : Core} {n : Nat} {w : RegWrite} (h : (k.writes (.send c))[n]? = some w) :
    (settings k.dmaHandle c)[n]? = some w ∨ n = 4 ∧ w = ⟨regCtrl, ctrlStart⟩ := by
  rcases n with _ | _ | _ | _ | _ | n
  · exact .inl h
  · exact .inl h
  · exact .inl h
  · exact .inl h
  · exact .inr ⟨rfl, (Option.some.inj h).symm⟩
  · cases h

theorem mirror (h : Settled s) (w : RegWrite) :
    (s.busWrite w).dev.lastOpcode = (s.busWrite w).regs regDoorbell ∧
      (s.busWrite w).dev.dmaLen = (s.busWrite w).regs regDmaLen := by
  by_cases hin : w.reg ∈ cmdRegs
  · simp only [cmdRegs, List.mem_cons, List.not_mem_nil, or_false] at hin
    obtain ⟨reg, value⟩ := w
    rcases hin with hreg | hreg | hreg | hreg <;> cases hreg
    · exact ⟨h.opcode, h.length⟩
    · exact ⟨h.opcode, h.length⟩
    · exact ⟨h.opcode, rfl⟩
    · exact ⟨rfl, h.length⟩
  · have hsame := unchanged_busWrite s hin
    rw [hsame.opcode, hsame.length, hsame.regs _ (by decide), hsame.regs _ (by decide)]
    exact ⟨h.opcode, h.length⟩

theorem Written.next {n : Nat} {w : RegWrite} (h : Written s c n)
    (hw : (settings s.core.dmaHandle c)[n]? = some w) : Written (s.busWrite w) c (n + 1) := by
  intro w' hw'
  have hmem := List.mem_of_getElem? hw
  have hnodup : ((settings s.core.dmaHandle c).map RegWrite.reg).Nodup := by
    rw [settings_map]
    decide
  by_cases hreg : w'.reg = w.reg
  · obtain rfl := List.inj_on_of_nodup_map hnodup (List.mem_of_mem_take hw') hmem hreg
    exact Function.update_self ..
  · have hbefore : w' ∈ (settings s.core.dmaHandle c).take n := by
      have hconcat : w' ∈ (settings s.core.dmaHandle c).take n ++ [w] := by
        have htake := List.take_add_one (l := settings s.core.dmaHandle c) (i := n)
        rw [hw] at htake
        exact htake ▸ hw'
      rcases List.mem_append.mp hconcat with hbefore | hlast
      · exact hbefore
      · exact absurd (congrArg RegWrite.reg (List.mem_singleton.mp hlast)) hreg
    exact (Function.update_of_ne hreg _ _).trans (h w' hbefore)

theorem Settled.rewrite (h : Settled s) (hflight : s.inFlight = some c') (hsame : SameCommand c c')
    {w : RegWrite} (hw : w ∈ settings s.core.dmaHandle c) : (s.busWrite w).regs = s.regs := by
  have hvalue : s.regs w.reg = w.value :=
    (h.flight c' hflight).2 w (hsame.settings s.core.dmaHandle ▸ hw)
  have hupdate : (s.busWrite w).regs = Function.update s.regs w.reg w.value := rfl
  rw [hupdate, ← hvalue, Function.update_eq_self]

theorem settled_setting (h : Settled s) {n : Nat} {w : RegWrite}
    (hcall : s.call = .writing (.send c) n) (hw : (settings s.core.dmaHandle c)[n]? = some w) :
    Settled (s.callWrite (.send c) n w) ∧
      (s.inFlight ≠ none → Unchanged s (s.callWrite (.send c) n w)) := by
  have hmem := List.mem_of_getElem? hw
  obtain ⟨hloaded, hwritten⟩ := h.sending c n hcall
  obtain ⟨hopcode, hlength⟩ := mirror h w
  have hctrl : w.reg ≠ regCtrl := ne_of_mem_of_not_mem (settings_regs hmem) (by decide)
  have hnext : s.callWrite (.send c) n w =
      { s.busWrite w with call := .writing (.send c) (n + 1) } := by
    simp only [Sys.callWrite, Sys.note, if_neg hctrl]
  have hregs (c' : ProtoPcieCommand) (hflight : s.inFlight = some c') :
      (s.busWrite w).regs = s.regs :=
    h.rewrite hflight (h.same c n c' hcall hflight) hmem
  rw [hnext]
  constructor
  · refine ⟨hopcode, hlength, ?_, ?_, ?_⟩
    · intro c' m hcall'
      cases hcall'
      exact ⟨hloaded.congr rfl rfl, hwritten.next hw⟩
    · intro c' hflight
      obtain ⟨hloaded', hwritten'⟩ := h.flight c' hflight
      exact ⟨hloaded'.congr rfl rfl, hwritten'.congr rfl fun r _ => congrFun (hregs c' hflight) r⟩
    · intro c' m c'' hcall' hflight
      cases hcall'
      exact h.same c n c'' hcall hflight
  · intro hsome
    obtain ⟨c', hflight⟩ := Option.ne_none_iff_exists'.mp hsome
    have hsame := hregs c' hflight
    refine ⟨rfl, rfl, fun r _ => congrFun hsame r, ?_, ?_⟩
    · exact hopcode.trans ((congrFun hsame _).trans h.opcode.symm)
    · exact hlength.trans ((congrFun hsame _).trans h.length.symm)

theorem settled_start (h : Settled s) (hcall : s.call = .writing (.send c) 4) :
    Settled (s.callWrite (.send c) 4 ⟨regCtrl, ctrlStart⟩) ∧
      Unchanged s (s.callWrite (.send c) 4 ⟨regCtrl, ctrlStart⟩) := by
  obtain ⟨hloaded, hwritten⟩ := h.sending c 4 hcall
  obtain ⟨hopcode, hlength⟩ := mirror h ⟨regCtrl, ctrlStart⟩
  have hsame := unchanged_busWrite s (w := ⟨_, ctrlStart⟩) (by decide : regCtrl ∉ cmdRegs)
  refine ⟨⟨hopcode, hlength, ?_, ?_, ?_⟩, ⟨rfl, rfl, hsame.regs, hsame.opcode, hsame.length⟩⟩
  · intro c' n hcall'
    cases hcall'
    have hall : Written s c 5 := hwritten
    exact ⟨hloaded.congr rfl rfl, hall.congr rfl hsame.regs⟩
  · intro c' hflight
    cases hflight
    exact ⟨hloaded.congr rfl rfl, hwritten.congr rfl hsame.regs⟩
  · intro c' n c'' hcall' hflight
    cases hcall'
    cases hflight
    exact SameCommand.refl c

theorem settled_advance (h : Settled s) :
    Settled s.advance ∧ (s.inFlight ≠ none → Unchanged s s.advance) := by
  have hquiet {s' : Sys} (hq : Quiet s s') : Settled s' ∧ (s.inFlight ≠ none → Unchanged s s') :=
    ⟨h.quiet hq, fun _ => hq.toUnchanged⟩
  have hread {call : CallPc} {k : Core} (hbuf : k.dmaBuf = s.core.dmaBuf)
      (hlen : k.dmaLen = s.core.dmaLen) (hhandle : k.dmaHandle = s.core.dmaHandle)
      (hne : ∀ c n, call ≠ .writing (.send c) n) : Quiet s { s with core := k, call := call } :=
    ⟨⟨hbuf, hlen, fun _ _ => rfl, rfl, rfl⟩, hhandle, .inl rfl, .inr hne⟩
  unfold Sys.advance
  split
  · exact hquiet (Quiet.refl s)
  · next call n hcall =>
    split
    · next w hw =>
      cases call with
      | send c =>
        rcases send_write hw with hsetting | ⟨rfl, rfl⟩
        · exact settled_setting h hcall hsetting
        · exact ⟨(settled_start h hcall).1, fun _ => (settled_start h hcall).2⟩
      | reset =>
        have hctrl : w.reg = regCtrl := by
          rcases n with _ | _ | n <;> cases hw <;> rfl
        obtain ⟨reg, v⟩ := w
        obtain rfl : reg = regCtrl := hctrl
        exact hquiet (quiet_reset s n v)
    · exact hquiet (hread rfl rfl rfl fun _ _ heq => by cases heq)
  · exact hquiet (hread rfl rfl rfl fun _ _ heq => by cases heq)

theorem settled_step (h : Settled s) (e : Event) (hno : NoOverlap s e) :
    Settled (step s e) ∧ Stable s e := by
  have heff := step_effect s e
  rw [Stable]
  generalize step s e = s' at heff ⊢
  have hquiet (hq : Quiet s s') : Settled s' ∧ (s.inFlight ≠ none → Unchanged s s') :=
    ⟨h.quiet hq, fun _ => hq.toUnchanged⟩
  cases heff with
  | skip => exact hquiet (Quiet.refl s)
  | begin call hidle =>
    cases call with
    | send c => exact settled_begin h (hno hidle)
    | reset =>
      obtain ⟨⟨hbuf, hlen, hregs, hopcode, hlength⟩, hhandle, hflight, hcall⟩ :=
        quiet_reset { s with recorded := false } 0 ctrlReset
      exact hquiet ⟨⟨hbuf, hlen, hregs, hopcode, hlength⟩, hhandle, hflight, hcall⟩
  | advance => exact settled_advance h
  | expire => exact hquiet (quiet_expire s)
  | enter | store => exact hquiet ⟨⟨rfl, rfl, fun _ _ => rfl, rfl, rfl⟩, rfl, .inl rfl, .inl rfl⟩
  | read => exact hquiet (quiet_read s _ _ _)
  | ack v => exact hquiet (quiet_ack s v _)

end

/-! ## When a command in flight is left alone -/

/-- **As long as no other command begins while one is in flight**, nothing changes under it, and the
device completes it with the payload, the length and the opcode it was sent with. -/
theorem flight_undisturbed (dmaBuf : Mem) (dmaHandle : BitVec 64) (es : List Event)
    (h : Along step NoOverlap (ready dmaBuf dmaHandle) es) :
    Along step (fun s e => Stable s e ∧ CompletesIt s e) (ready dmaBuf dmaHandle) es := by
  have hsettled : Always step Settled (ready dmaBuf dmaHandle) es :=
    Always.of_step (fun s e hs hno => (settled_step hs e hno).1) (settled_ready _ _) h
  exact Along.of_always hsettled h fun s e hs hno =>
    ⟨(settled_step hs e hno).2, fun _ _ _ hflight => hs.holds hflight⟩

/-- One command, from its start to the read of the handler, and then the next. -/
theorem flight_undisturbed_two :
    let es : List Event := callSteps (.send ⟨1, 2, Vector.replicate 256 7⟩) ++
      [.expire, .enter, .read, .begin (.send ⟨2, 1, Vector.replicate 256 9⟩)]
    Along step (fun s e => Stable s e ∧ CompletesIt s e) (ready Mem.zero 0x10000) es := by
  intro es
  refine flight_undisturbed Mem.zero 0x10000 es ?_
  refine ⟨fun _ _ h => ?_, trivial, trivial, trivial, trivial, trivial, trivial, trivial, trivial,
    trivial, trivial, fun _ _ h => ?_, trivial⟩
  · cases h
  · cases h

/-- A second command begins before the first is done, and the device finds its byte. -/
theorem flight_disturbed :
    let es := callSteps (.send ⟨1, 2, Vector.replicate 256 7⟩) ++
      [.begin (.send ⟨2, 1, Vector.replicate 256 9⟩)]
    ¬ Along step (fun s e => Stable s e ∧ CompletesIt s e) (ready Mem.zero 0x10000) es := by
  intro es hrun
  have hstable := ((along_append _).mp hrun).2.1.1
  have hbuf := (hstable (Option.some_ne_none _)).dmaBuf
  exact absurd (congrFun hbuf 0) (by decide +kernel)

end PcieDriver.Hw
