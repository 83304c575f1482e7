import PcieDriver.Base.Machine
import PcieDriver.Base.Pool
import PcieDriver.Edu.Userspace

/-!
# The life cycle of the userspace handle

The constructor, the destructor, the moves and the mapping of `class EduDevice`, with the file
descriptors and the mappings that they open and close. What the system calls return is part of the
operation, and the text of an error is that of `strerror`.
-/

open Base

namespace PcieDriver.Edu.Lifecycle

/-! ## The class -/

inductive Res
  | fd (n : Nat)
  | map (addr : Nat)
  deriving DecidableEq

/-- The handle with what it owns. -/
structure EduDevice extends Edu.EduDevice where
  fd : Int
  evtfd : Int
  ringMap : Nat
  deriving DecidableEq

abbrev Kernel := Pool Res

def throwErrno (what err : String) : String := what ++ ": " ++ err

def closeFd (k : Kernel) (fd : Int) : Kernel := if 0 ≤ fd then k.release (.fd fd.toNat) else k

namespace EduDevice

def registerEventfd : Except String Unit → Except String Unit
  | .ok () => .ok ()
  | .error err => .error (throwErrno "EDU_IOC_SET_EVENTFD" err)

/-- A constructor that throws leaves no object behind, so no destructor runs. -/
def construct (k : Kernel) (path : String) (opened eventfd : Except String Nat)
    (ioctl : Except String Unit) : Kernel × Except String EduDevice :=
  match opened with
  | .error err => (k, .error (throwErrno ("open " ++ path) err))
  | .ok fd =>
    let k := k.acquire (.fd fd)
    match eventfd with
    | .error err => (k.release (.fd fd), .error (throwErrno "eventfd" err))
    | .ok evtfd =>
      let k := k.acquire (.fd evtfd)
      match registerEventfd ioctl with
      | .error text => (k, .error text)
      | .ok () => (k, .ok ⟨⟨false, 0⟩, fd, evtfd, 0⟩)

def mapRings (k : Kernel) (d : EduDevice) (mmap : Except String Nat) :
    Kernel × EduDevice × Except String Unit :=
  if d.ringsMapped then (k, d, .ok ())
  else match mmap with
  | .error err => (k, d, .error (throwErrno "mmap rings" err))
  | .ok p => (k.acquire (.map p), { d with ringMap := p, ringsMapped := true }, .ok ())

def unmapRings (k : Kernel) (d : EduDevice) : Kernel × EduDevice :=
  if d.ringsMapped then (k.release (.map d.ringMap), { d with ringMap := 0, ringsMapped := false })
  else (k, d)

/-- The destructor. -/
def destroy (k : Kernel) (d : EduDevice) : Kernel :=
  let (k, d) := d.unmapRings k
  closeFd (closeFd k d.evtfd) d.fd

/-- What a move leaves behind. -/
def movedFrom : EduDevice := ⟨⟨false, 0⟩, -1, -1, 0⟩

/-- The new object and the old one. -/
def moveConstruct (other : EduDevice) : EduDevice × EduDevice := (other, movedFrom)

/-- The move assignment from another object: `this` and `other` afterwards. -/
def moveAssign (k : Kernel) (this other : EduDevice) : Kernel × EduDevice × EduDevice :=
  let (k, this) := this.unmapRings k
  (closeFd (closeFd k this.evtfd) this.fd, other, movedFrom)

end EduDevice

/-! ## A program that uses the class -/

/-- Every object so far. A destroyed one is `none`. -/
structure World where
  kernel : Kernel
  objs : List (Option EduDevice)

def World.start : World := ⟨.empty, []⟩

inductive Op
  | construct (path : String) (opened eventfd : Except String Nat) (ioctl : Except String Unit)
  | moveConstruct (j : Nat)
  | moveAssign (i j : Nat)
  | mapRings (i : Nat) (mmap : Except String Nat)
  | unmapRings (i : Nat)
  | destroy (i : Nat)

/-- The object `i`, if it is there. -/
def World.obj (w : World) (i : Nat) : Option EduDevice := (w.objs[i]?).join

def step (w : World) : Op → World
  | .construct path opened eventfd ioctl =>
    match EduDevice.construct w.kernel path opened eventfd ioctl with
    | (k, .ok d) => ⟨k, w.objs ++ [some d]⟩
    | (k, .error _) => { w with kernel := k }
  | .moveConstruct j =>
    match w.obj j with
    | some other =>
      let (d, other) := other.moveConstruct
      { w with objs := w.objs.set j (some other) ++ [some d] }
    | none => w
  | .moveAssign i j =>
    match w.obj i, w.obj j with
    | some this, some other =>
      if i = j then w
      else
        let (k, this, other) := this.moveAssign w.kernel other
        ⟨k, (w.objs.set i (some this)).set j (some other)⟩
    | _, _ => w
  | .mapRings i mmap =>
    match w.obj i with
    | some d =>
      let (k, d, _) := d.mapRings w.kernel mmap
      ⟨k, w.objs.set i (some d)⟩
    | none => w
  | .unmapRings i =>
    match w.obj i with
    | some d =>
      let (k, d) := d.unmapRings w.kernel
      ⟨k, w.objs.set i (some d)⟩
    | none => w
  | .destroy i =>
    match w.obj i with
    | some d => ⟨d.destroy w.kernel, w.objs.set i none⟩
    | none => w

/-! ## Who owns what -/

namespace EduDevice

def mapping (d : EduDevice) : List Res := if d.ringsMapped then [.map d.ringMap] else []

def resources (d : EduDevice) : List Res :=
  d.mapping ++ ((if 0 ≤ d.evtfd then [.fd d.evtfd.toNat] else []) ++
    (if 0 ≤ d.fd then [.fd d.fd.toNat] else []))

end EduDevice

def resourcesOf : Option EduDevice → List Res
  | some d => d.resources
  | none => []

/-- How many objects own `r`. -/
def World.owned (w : World) (r : Res) : Nat := ownedBy resourcesOf w.objs r

/-- Whatever is open has one owner, and nothing else was ever closed or unmapped. -/
structure OwnedOnce (w : World) : Prop where
  live : ∀ r, w.kernel.live.count r = w.owned r
  strays : w.kernel.strays = []

def World.Destroyed (w : World) : Prop := ∀ o ∈ w.objs, o = none

instance (w : World) : Decidable w.Destroyed :=
  inferInstanceAs (Decidable (∀ o ∈ w.objs, o = none))

/-- Each resource was released as often as it was acquired. -/
def World.AllReleased (w : World) : Prop :=
  ∀ r, w.kernel.released.count r = w.kernel.acquired.count r

/-- What a constructor leaves open when it throws. -/
def Op.leaks : Op → List Res
  | .construct _ (.ok fd) (.ok evtfd) (.error _) => [.fd evtfd, .fd fd]
  | _ => []

/-- The constructor throws because the eventfd could not be registered. -/
def Op.ThrowsLate : Op → Prop
  | .construct _ (.ok _) (.ok _) (.error _) => True
  | _ => False

theorem Op.leaks_eq_nil {op : Op} : op.leaks = [] ↔ ¬ op.ThrowsLate := by
  unfold Op.leaks Op.ThrowsLate
  split <;> simp

namespace EduDevice

variable (k : Kernel) (d : EduDevice)

theorem closeFd_eq (fd : Int) :
    closeFd k fd = k.releaseAll (if 0 ≤ fd then [.fd fd.toNat] else []) := by
  unfold closeFd
  split_ifs <;> rfl

theorem unmapRings_kernel : (d.unmapRings k).1 = k.releaseAll d.mapping := by
  unfold unmapRings mapping
  split_ifs <;> rfl

theorem unmapRings_resources (r : Res) :
    (d.unmapRings k).2.resources.count r + d.mapping.count r = d.resources.count r := by
  cases hmapped : d.ringsMapped with
  | true =>
    simp only [unmapRings, resources, mapping, hmapped, Bool.false_eq_true, if_true, if_false,
      List.nil_append, List.count_append]
    omega
  | false => simp [unmapRings, mapping, hmapped]

/-- **The destructor releases what the object owns.** -/
theorem destroy_eq : d.destroy k = k.releaseAll d.resources := by
  have hfd : (d.unmapRings k).2.fd = d.fd := by unfold unmapRings; split_ifs <;> rfl
  have hevtfd : (d.unmapRings k).2.evtfd = d.evtfd := by unfold unmapRings; split_ifs <;> rfl
  have hunfold : d.destroy k =
      closeFd (closeFd (d.unmapRings k).1 (d.unmapRings k).2.evtfd) (d.unmapRings k).2.fd := rfl
  rw [hunfold, hfd, hevtfd, unmapRings_kernel, closeFd_eq, closeFd_eq, resources,
    Pool.releaseAll_append, Pool.releaseAll_append]

theorem moveAssign_eq (other : EduDevice) :
    d.moveAssign k other = (k.releaseAll d.resources, other, movedFrom) := by
  rw [← destroy_eq]
  rfl

/-! ### The handle of the ring -/

theorem construct_handle {path : String} {opened eventfd : Except String Nat}
    {ioctl : Except String Unit} (h : (construct k path opened eventfd ioctl).2 = .ok d)
    (dev : EduDev) : d.toEduDevice = (Proc.opened dev).handle := by
  unfold construct registerEventfd at h
  cases opened with
  | error => cases h
  | ok fd =>
    cases eventfd with
    | error => cases h
    | ok evtfd =>
      cases ioctl with
      | error => cases h
      | ok =>
        cases h
        rfl

theorem mapRings_handle (p : Nat) :
    (d.mapRings k (.ok p)).2.1.toEduDevice = { d.toEduDevice with ringsMapped := true } := by
  unfold mapRings
  split_ifs with hmapped
  · rw [← hmapped]
  · rfl

theorem unmapRings_handle :
    (d.unmapRings k).2.toEduDevice = { d.toEduDevice with ringsMapped := false } := by
  cases hmapped : d.ringsMapped with
  | true => simp [unmapRings, hmapped]
  | false =>
    simp only [unmapRings, hmapped, Bool.false_eq_true, if_false]
    rw [← hmapped]

end EduDevice

/-! ## The balance -/

/-- Whatever is open is owned, or was leaked. -/
structure Balanced (w : World) (leaked : List Res) : Prop where
  sound : w.kernel.Sound
  live : ∀ r, w.kernel.live.count r = w.owned r + leaked.count r

section
variable {w : World} {leaked : List Res} {i j : Nat} {d other : EduDevice}

theorem obj_eq_some : w.obj i = some d ↔ w.objs[i]? = some (some d) := Option.join_eq_some_iff

theorem balanced_start : Balanced .start [] := ⟨Pool.sound_empty, fun _ => rfl⟩

theorem resources_new (fd evtfd : Nat) :
    EduDevice.resources ⟨⟨false, 0⟩, fd, evtfd, 0⟩ = [.fd evtfd, .fd fd] := by
  simp [EduDevice.resources, EduDevice.mapping]

theorem Balanced.opened (h : Balanced w leaked) (fd : Nat) (r : Res) :
    (w.kernel.acquire (.fd fd)).live.count r =
      [Res.fd fd].count r + (w.owned r + leaked.count r) := by
  rw [Pool.count_acquire, h.live]

theorem Balanced.openedTwo (h : Balanced w leaked) (fd evtfd : Nat) (r : Res) :
    ((w.kernel.acquire (.fd fd)).acquire (.fd evtfd)).live.count r =
      [Res.fd evtfd, .fd fd].count r + (w.owned r + leaked.count r) := by
  rw [Pool.count_acquire, h.opened, Pool.count_cons_add (Res.fd evtfd) [Res.fd fd] r, Nat.add_assoc]

theorem Balanced.closed (h : Balanced w leaked) (fd : Nat) :
    Balanced { w with kernel := (w.kernel.acquire (.fd fd)).release (.fd fd) } leaked := by
  refine ⟨(h.sound.acquire _).release List.mem_cons_self, fun r => ?_⟩
  have hclosed := (w.kernel.acquire (.fd fd)).count_release (.fd fd) r
  rw [h.opened, Nat.add_sub_cancel_left] at hclosed
  exact hclosed

theorem Balanced.leak (h : Balanced w leaked) (fd evtfd : Nat) :
    Balanced { w with kernel := (w.kernel.acquire (.fd fd)).acquire (.fd evtfd) }
      ([.fd evtfd, .fd fd] ++ leaked) := by
  refine ⟨(h.sound.acquire _).acquire _, fun r => ?_⟩
  have hopened := h.openedTwo fd evtfd r
  have hsplit : ([Res.fd evtfd, .fd fd] ++ leaked).count r =
      [Res.fd evtfd, .fd fd].count r + leaked.count r := List.count_append
  show ((w.kernel.acquire (.fd fd)).acquire (.fd evtfd)).live.count r =
    w.owned r + ([Res.fd evtfd, .fd fd] ++ leaked).count r
  omega

theorem Balanced.create (h : Balanced w leaked) (fd evtfd : Nat) :
    Balanced ⟨(w.kernel.acquire (.fd fd)).acquire (.fd evtfd),
      w.objs ++ [some ⟨⟨false, 0⟩, fd, evtfd, 0⟩]⟩ leaked := by
  refine ⟨(h.sound.acquire _).acquire _, fun r => ?_⟩
  have hopened := h.openedTwo fd evtfd r
  have howned : ownedBy resourcesOf (w.objs ++ [some (⟨⟨false, 0⟩, fd, evtfd, 0⟩ : EduDevice)]) r =
      w.owned r + [Res.fd evtfd, .fd fd].count r := by
    rw [ownedBy_append, ownedBy_cons, resourcesOf, resources_new]
    rfl
  show ((w.kernel.acquire (.fd fd)).acquire (.fd evtfd)).live.count r =
    ownedBy resourcesOf (w.objs ++ [some ⟨⟨false, 0⟩, fd, evtfd, 0⟩]) r + leaked.count r
  omega

theorem Balanced.construct (h : Balanced w leaked) (path : String)
    (opened eventfd : Except String Nat) (ioctl : Except String Unit) :
    Balanced (step w (.construct path opened eventfd ioctl))
      (Op.leaks (.construct path opened eventfd ioctl) ++ leaked) := by
  cases opened with
  | error => exact h
  | ok fd =>
    cases eventfd with
    | error => exact h.closed fd
    | ok evtfd =>
      cases ioctl with
      | error => exact h.leak fd evtfd
      | ok => exact h.create fd evtfd

/-- A step of one object: what it owned before it releases, or owns in the end. -/
theorem Balanced.set (h : Balanced w leaked) (hobj : w.obj i = some d) (o : Option EduDevice)
    {rs : List Res} (hrs : ∀ r, (resourcesOf o).count r + rs.count r = d.resources.count r) :
    Balanced ⟨w.kernel.releaseAll rs, w.objs.set i o⟩ leaked := by
  have hi := obj_eq_some.mp hobj
  have hle (r : Res) : rs.count r ≤ w.kernel.live.count r := by
    have hown : (resourcesOf (some d)).count r ≤ w.owned r := count_le_ownedBy hi r
    have hsum : (resourcesOf o).count r + rs.count r = (resourcesOf (some d)).count r := hrs r
    have hlive := h.live r
    omega
  refine ⟨h.sound.releaseAll hle, fun r => ?_⟩
  have hset : ownedBy resourcesOf (w.objs.set i o) r + (resourcesOf (some d)).count r =
      w.owned r + (resourcesOf o).count r := ownedBy_set o hi r
  have hsum : (resourcesOf o).count r + rs.count r = (resourcesOf (some d)).count r := hrs r
  have hlive := h.live r
  have hreleased := w.kernel.count_releaseAll rs r
  show (w.kernel.releaseAll rs).live.count r = ownedBy resourcesOf (w.objs.set i o) r + leaked.count r
  omega

theorem Balanced.destroy (h : Balanced w leaked) (i : Nat) :
    Balanced (step w (.destroy i)) leaked := by
  cases hobj : w.obj i with
  | none => simpa only [step, hobj] using h
  | some d =>
    simp only [step, hobj, EduDevice.destroy_eq]
    exact h.set hobj none fun r => Nat.zero_add _

theorem Balanced.unmapRings (h : Balanced w leaked) (i : Nat) :
    Balanced (step w (.unmapRings i)) leaked := by
  cases hobj : w.obj i with
  | none => simpa only [step, hobj] using h
  | some d =>
    simp only [step, hobj, EduDevice.unmapRings_kernel]
    exact h.set hobj _ (d.unmapRings_resources w.kernel)

theorem Balanced.moveConstruct (h : Balanced w leaked) (j : Nat) :
    Balanced (step w (.moveConstruct j)) leaked := by
  cases hobj : w.obj j with
  | none => simpa only [step, hobj] using h
  | some other =>
    simp only [step, hobj, EduDevice.moveConstruct]
    refine ⟨h.sound, fun r => (h.live r).trans ?_⟩
    have hset : ownedBy resourcesOf (w.objs.set j (some .movedFrom)) r + other.resources.count r =
        w.owned r + 0 := ownedBy_set (some .movedFrom) (obj_eq_some.mp hobj) r
    have howned : ownedBy resourcesOf (w.objs.set j (some .movedFrom) ++ [some other]) r =
        w.owned r := by
      rw [ownedBy_append, ownedBy_cons, ownedBy_nil]
      exact hset
    exact congrArg (· + leaked.count r) howned.symm

/-- An assignment from an object to itself does nothing, and else the object that is assigned to
releases what it owned. -/
theorem Balanced.moveAssign (h : Balanced w leaked) (i j : Nat) :
    Balanced (step w (.moveAssign i j)) leaked := by
  cases hthis : w.obj i with
  | none => simpa only [step, hthis] using h
  | some this =>
    cases hother : w.obj j with
    | none => simpa only [step, hthis, hother] using h
    | some other =>
      simp only [step, hthis, hother, EduDevice.moveAssign_eq]
      split_ifs with hself
      · exact h
      · -- As if `this` were destroyed, and `other` then became two objects of which one owns it all.
        have hgone : Balanced ⟨w.kernel.releaseAll this.resources, w.objs.set i none⟩ leaked :=
          h.set hthis none fun r => Nat.zero_add _
        refine ⟨hgone.sound, fun r => (hgone.live r).trans (congrArg (· + leaked.count r) ?_)⟩
        have hnone : ownedBy resourcesOf (w.objs.set i none) r + this.resources.count r =
            w.owned r + 0 := ownedBy_set none (obj_eq_some.mp hthis) r
        have hboth : ownedBy resourcesOf ((w.objs.set i (some other)).set j (some .movedFrom)) r +
            this.resources.count r + other.resources.count r =
            w.owned r + other.resources.count r + 0 :=
          ownedBy_set_set (some other) (some .movedFrom) hself (obj_eq_some.mp hthis)
            (obj_eq_some.mp hother) r
        show ownedBy resourcesOf (w.objs.set i none) r =
          ownedBy resourcesOf ((w.objs.set i (some other)).set j (some .movedFrom)) r
        omega

theorem Balanced.mapRings (h : Balanced w leaked) (i : Nat) (mmap : Except String Nat) :
    Balanced (step w (.mapRings i mmap)) leaked := by
  cases hobj : w.obj i with
  | none => simpa only [step, hobj] using h
  | some d =>
    have hsame : Balanced ⟨w.kernel, w.objs.set i (some d)⟩ leaked :=
      @Balanced.set w leaked i d h hobj (some d) [] fun _ => rfl
    simp only [step, hobj, EduDevice.mapRings]
    cases hmapped : d.ringsMapped with
    | true => exact hsame
    | false =>
      cases mmap with
      | error => exact hsame
      | ok p =>
        let d' : EduDevice := { d with ringMap := p, ringsMapped := true }
        have hmore (r : Res) : d'.resources.count r = [Res.map p].count r + d.resources.count r := by
          have hmapping : d.mapping = [] := by simp [EduDevice.mapping, hmapped]
          rw [EduDevice.resources, EduDevice.resources, hmapping, List.nil_append, List.count_append]
          rfl
        refine ⟨h.sound.acquire _, fun r => ?_⟩
        have hset : ownedBy resourcesOf (w.objs.set i (some d')) r + d.resources.count r =
            w.owned r + d'.resources.count r := ownedBy_set (some d') (obj_eq_some.mp hobj) r
        have hlive := h.live r
        have hacquired := w.kernel.count_acquire (.map p) r
        have hd' := hmore r
        show (w.kernel.acquire (.map p)).live.count r =
          ownedBy resourcesOf (w.objs.set i (some d')) r + leaked.count r
        omega

theorem Balanced.step (h : Balanced w leaked) (op : Op) :
    Balanced (step w op) (op.leaks ++ leaked) := by
  cases op with
  | construct path opened eventfd ioctl => exact h.construct path opened eventfd ioctl
  | moveConstruct j => exact h.moveConstruct j
  | moveAssign i j => exact h.moveAssign i j
  | mapRings i mmap => exact h.mapRings i mmap
  | unmapRings i => exact h.unmapRings i
  | destroy i => exact h.destroy i

theorem Balanced.after (h : Balanced w leaked) (ops : List Op) :
    ∃ leaked', (∀ r, leaked'.count r = leaked.count r + (ops.flatMap Op.leaks).count r) ∧
      Balanced (run Lifecycle.step w ops) leaked' := by
  induction ops generalizing w leaked with
  | nil => exact ⟨leaked, fun _ => rfl, h⟩
  | cons op ops ih =>
    obtain ⟨leaked', hcount, hrun⟩ := ih (h.step op)
    refine ⟨leaked', fun r => ?_, hrun⟩
    rw [hcount, List.flatMap_cons, List.count_append, List.count_append]
    omega

theorem Balanced.ownedOnce (h : Balanced w []) : OwnedOnce w := ⟨h.live, h.sound.strays⟩

theorem World.Destroyed.owned (h : w.Destroyed) (r : Res) : w.owned r = 0 := by
  rw [World.owned, ownedBy, List.count_eq_zero, List.mem_flatMap]
  rintro ⟨o, ho, hr⟩
  rw [h o ho] at hr
  cases hr

theorem Balanced.destroyed (h : Balanced w leaked) (hend : w.Destroyed) (r : Res) :
    w.kernel.acquired.count r = w.kernel.released.count r + leaked.count r := by
  rw [h.sound.total r, h.live r, hend.owned r, Nat.zero_add]

end

/-! ## When the class owns its descriptors exactly once -/

/-- **Every constructor that throws late leaks**, and nothing else does: with all objects destroyed,
each resource was owned by one object as long as it was open, and was released as often as it was
acquired, exactly if no constructor failed to register its eventfd. -/
theorem owned_once_iff (ops : List Op) (hend : (run step .start ops).Destroyed) :
    (Always step OwnedOnce .start ops ∧ (run step .start ops).AllReleased) ↔
      ∀ op ∈ ops, ¬ op.ThrowsLate := by
  have hleaks : (∀ op ∈ ops, ¬ op.ThrowsLate) ↔ ops.flatMap Op.leaks = [] := by
    simp only [List.flatMap_eq_nil_iff, Op.leaks_eq_nil]
  obtain ⟨leaked, hcount, hrun⟩ := balanced_start.after ops
  constructor
  · rintro ⟨-, hall⟩
    rw [hleaks, List.eq_nil_iff_forall_not_mem]
    intro r hr
    have hpos := List.count_pos_iff.mpr hr
    have htotal := hrun.destroyed hend r
    rw [hall r, hcount] at htotal
    omega
  · intro hnot
    have hclean : Along step (fun _ op => op.leaks = []) .start ops :=
      along_of_forall fun _ op hop => Op.leaks_eq_nil.mpr (hnot op hop)
    have hinv : Always step (Balanced · []) .start ops := by
      refine Always.of_step (fun w op hw hop => ?_) balanced_start hclean
      have hstep := hw.step op
      rwa [hop] at hstep
    refine ⟨hinv.mono fun _ hw => hw.ownedOnce, fun r => ?_⟩
    have htotal := hinv.last.destroyed hend r
    exact htotal.symm

/-- Two devices, of which one is moved onto the other while that one is mapped. -/
theorem owned_once_moved :
    let ops : List Op := [.construct "/dev/edu_pci" (.ok 3) (.ok 4) (.ok ()), .mapRings 0 (.ok 4096),
      .construct "/dev/edu_pci" (.ok 5) (.ok 6) (.ok ()), .moveAssign 0 1, .destroy 0, .destroy 1]
    Always step OwnedOnce .start ops ∧ (run step .start ops).AllReleased := by
  intro ops
  refine (owned_once_iff ops (by decide)).mpr fun op hop => ?_
  simp only [ops, List.mem_cons, List.not_mem_nil, or_false] at hop
  obtain rfl | rfl | rfl | rfl | rfl | rfl := hop <;> exact id

/-- The ioctl fails, so the constructor throws and the object never exists. Both descriptors stay
open. -/
theorem leaks_two_descriptors :
    ¬ ∀ ops : List Op, (run step .start ops).Destroyed →
      Always step OwnedOnce .start ops ∧ (run step .start ops).AllReleased := by
  intro hall
  have hreleased := (hall [.construct "/dev/edu_pci" (.ok 3) (.ok 4) (.error "Invalid argument")]
    (by decide)).2 (.fd 3)
  exact absurd hreleased (by decide)

end PcieDriver.Edu.Lifecycle
