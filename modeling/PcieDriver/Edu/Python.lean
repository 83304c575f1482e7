import PcieDriver.Edu.Lifecycle
import PcieDriver.Edu.WaitCompletion

/-!
# The Python object

`class EduDevice` of `userspace/python/edu_device.py` holds a pointer to a C++ object through the C
shim of `userspace/edu_device_c.cpp`. It is closed by `close`, by the end of a `with` block and by the
collector. No method but `close` looks whether it is still open, and most of them follow the pointer.
-/

open Base
open PcieDriver.Edu.Lifecycle (World Balanced)

namespace PcieDriver.Edu.Python

/-! ## The C shim -/

/-- `edu_open`: the object, or NULL for a constructor that throws. -/
def eduOpen (w : World) (path : String) (opened eventfd : Except String Nat)
    (ioctl : Except String Unit) : World × Option Nat :=
  (Lifecycle.step w (.construct path opened eventfd ioctl),
    match (Lifecycle.EduDevice.construct w.kernel path opened eventfd ioctl).2 with
    | .ok _ => some w.objs.length
    | .error _ => none)

/-- `edu_close`. -/
def eduClose (w : World) (handle : Nat) : World := Lifecycle.step w (.destroy handle)

/-- `edu_map_rings`. -/
def eduMapRings (w : World) (handle : Nat) (mmap : Except String Nat) : World :=
  Lifecycle.step w (.mapRings handle mmap)

/-- `edu_unmap_rings`. -/
def eduUnmapRings (w : World) (handle : Nat) : World := Lifecycle.step w (.unmapRings handle)

/-- A timeout for `edu_wait_completion` that fits in microseconds. Beyond, the behaviour is undefined. -/
structure Timeout where
  ms : CInt
  limitUs : CInt
  fits : ms.mul usPerMs = some limitUs

/-- The loop is entered. Only its polls use the object. -/
def Timeout.polls (t : Timeout) : Bool := noneYet.val < t.limitUs.val

/-! ## The class -/

/-- `_handle` of every Python object so far. A process that passes NULL to the shim is gone. -/
structure Process where
  world : World
  handles : List (Option Nat)
  crashed : Bool

def Process.start : Process := ⟨.start, [], false⟩

inductive Op
  /-- `EduDevice(path)`, with what the system calls return. -/
  | init (path : String) (opened eventfd : Except String Nat) (ioctl : Except String Unit)
  /-- `close`, `__exit__` or `__del__`. -/
  | close (i : Nat)
  | mapRings (i : Nat) (mmap : Except String Nat)
  | unmapRings (i : Nat)
  /-- `__enter__` -/
  | enter (i : Nat)
  | waitCompletion (i : Nat) (timeout : Timeout)
  /-- `factorial`, `dma_test`, `state`, `poll_completion` or a submit. -/
  | use (i : Nat)

namespace Process

variable (p : Process)

/-- `_handle` of object `i`, if it is not None. -/
def handle (i : Nat) : Option Nat := (p.handles[i]?).join

/-- `__init__`. An object whose `edu_open` fails is there all the same, and is collected later. -/
def init (path : String) (opened eventfd : Except String Nat) (ioctl : Except String Unit) : Process :=
  let (w, handle) := eduOpen p.world path opened eventfd ioctl
  { p with world := w, handles := p.handles ++ [handle] }

def close (i : Nat) : Process :=
  match p.handle i with
  | some h => { p with world := eduClose p.world h, handles := p.handles.set i none }
  | none => p

/-- A method that hands the pointer to the shim as it is, where the object is used. -/
def pass (i : Nat) (f : World → Nat → World) : Process :=
  match p.handle i with
  | some h => { p with world := f p.world h }
  | none => { p with crashed := true }

end Process

def step (p : Process) (op : Op) : Process :=
  if p.crashed then p
  else match op with
    | .init path opened eventfd ioctl => p.init path opened eventfd ioctl
    | .close i => p.close i
    | .mapRings i mmap => p.pass i (eduMapRings · · mmap)
    | .unmapRings i => p.pass i eduUnmapRings
    | .enter _ => p
    | .waitCompletion i timeout => if timeout.polls then p.pass i fun w _ => w else p
    | .use i => p.pass i fun w _ => w

/-! ## What holds -/

/-- Each C++ object that is there belongs to one Python object, and no pointer dangles. -/
structure Held (p : Process) : Prop where
  live : ∀ i h, p.handle i = some h → ∃ d, p.world.obj h = some d
  held : ∀ h d, p.world.obj h = some d → ∃ i, p.handle i = some h
  once : ∀ i j h, p.handle i = some h → p.handle j = some h → i = j

/-- A method that follows the pointer is called on an object that is open. `close` and `__enter__` do
not follow it, nor does a `wait_completion` that has no time to poll. -/
def Op.UsesOpen (p : Process) : Op → Prop
  | .init .. | .close _ | .enter _ => True
  | .waitCompletion i timeout => timeout.polls = true → (p.handle i).isSome = true
  | .mapRings i _ | .unmapRings i | .use i => (p.handle i).isSome = true

/-- The C++ constructor throws because the eventfd could not be registered. -/
def Op.ThrowsLate : Op → Prop
  | .init path opened eventfd ioctl => Lifecycle.Op.ThrowsLate (.construct path opened eventfd ioctl)
  | _ => False

/-- What the step does to the C++ objects. -/
def Process.below (p : Process) (op : Op) : List Lifecycle.Op :=
  if p.crashed then []
  else match op with
    | .init path opened eventfd ioctl => [.construct path opened eventfd ioctl]
    | .close i => (p.handle i).toList.map .destroy
    | .mapRings i mmap => (p.handle i).toList.map fun h => .mapRings h mmap
    | .unmapRings i => (p.handle i).toList.map .unmapRings
    | .enter _ | .waitCompletion _ _ | .use _ => []

/-- A timeout that is not positive comes to nothing at once. -/
theorem Timeout.polls_iff (t : Timeout) : t.polls = true ↔ 0 < t.ms.val := by
  have hval := limit_val t.fits
  have hstart : noneYet.val = 0 := rfl
  rw [Timeout.polls, decide_eq_true_iff]
  omega

theorem wait_without_poll {t : Timeout} (h : t.ms.val ≤ 0) (polls : Nat → Poll) :
    EduDevice.waitCompletion polls t.ms = ⟨.nullopt, 0, 0⟩ := by
  have hloop : ¬ noneYet.val < t.limitUs.val := fun hpolls =>
    absurd ((t.polls_iff).mp (decide_eq_true hpolls)) (not_lt.mpr h)
  simp only [EduDevice.waitCompletion, t.fits]
  rw [EduDevice.waitLoop, if_neg hloop]

section
variable {p : Process} {op : Op}

/-- **The Python class is a user of the C++ class.** -/
theorem step_below (p : Process) (op : Op) :
    (step p op).world = run Lifecycle.step p.world (p.below op) := by
  unfold step Process.below
  split_ifs with hcrashed
  · rfl
  · cases op with
    | init => rfl
    | close i => cases h : p.handle i <;> simp [Process.close, h, eduClose]
    | mapRings i mmap => cases h : p.handle i <;> simp [Process.pass, h, eduMapRings]
    | unmapRings i => cases h : p.handle i <;> simp [Process.pass, h, eduUnmapRings]
    | enter => rfl
    | waitCompletion i timeout =>
      cases htime : timeout.polls <;> cases h : p.handle i <;> simp [Process.pass, h, htime]
    | use i => cases h : p.handle i <;> simp [Process.pass, h]

theorem slot_append {α : Type} (xs : List (Option α)) (o : Option α) (i : Nat) :
    ((xs ++ [o])[i]?).join = if i = xs.length then o else (xs[i]?).join := by
  rw [List.getElem?_append]
  split_ifs with hlt heq heq
  · omega
  · rfl
  · subst heq
    simp
  · rw [List.getElem?_eq_none (by simp; omega), List.getElem?_eq_none (by omega)]

theorem slot_set {α : Type} {xs : List (Option α)} {i : Nat} {a : α}
    (h : (xs[i]?).join = some a) (o : Option α) (j : Nat) :
    ((xs.set i o)[j]?).join = if j = i then o else (xs[j]?).join := by
  have hlt : i < xs.length := by
    by_contra hge
    rw [List.getElem?_eq_none (by omega)] at h
    cases h
  by_cases hj : j = i
  · subst hj
    simp [hlt]
  · rw [if_neg hj, List.getElem?_set_ne (Ne.symm hj)]

theorem held_start : Held .start := ⟨nofun, nofun, nofun⟩

theorem Held.init_fails (h : Held p) {w : World} (hw : w.objs = p.world.objs) :
    Held { p with world := w, handles := p.handles ++ [none] } := by
  have hobj (m : Nat) : w.obj m = p.world.obj m := by rw [World.obj, hw]; rfl
  have hhandle (i : Nat) : ((p.handles ++ [none])[i]?).join =
      if i = p.handles.length then none else p.handle i := slot_append p.handles none i
  constructor
  · intro i m hi
    rw [Process.handle, hhandle] at hi
    split_ifs at hi
    rw [hobj]
    exact h.live i m hi
  · intro m d hm
    obtain ⟨i, hi⟩ := h.held m d (hobj m ▸ hm)
    refine ⟨i, ?_⟩
    rw [Process.handle, hhandle, if_neg, hi]
    rintro rfl
    simp [Process.handle] at hi
  · intro i j m hi hj
    rw [Process.handle, hhandle] at hi hj
    split_ifs at hi hj
    exact h.once i j m hi hj

theorem Held.init_works (h : Held p) {w : World} {d : Lifecycle.EduDevice}
    (hw : w.objs = p.world.objs ++ [some d]) :
    Held { p with world := w, handles := p.handles ++ [some p.world.objs.length] } := by
  have hobj (m : Nat) : w.obj m = if m = p.world.objs.length then some d else p.world.obj m := by
    rw [World.obj, hw]
    exact slot_append p.world.objs (some d) m
  have hhandle (i : Nat) : ((p.handles ++ [some p.world.objs.length])[i]?).join =
      if i = p.handles.length then some p.world.objs.length else p.handle i :=
    slot_append p.handles _ i
  have hnew (m : Nat) (i : Nat) (hi : p.handle i = some m) : m ≠ p.world.objs.length := by
    rintro rfl
    obtain ⟨e, he⟩ := h.live i _ hi
    simp [World.obj] at he
  constructor
  · intro i m hi
    rw [Process.handle, hhandle] at hi
    split_ifs at hi
    · obtain rfl := Option.some.inj hi
      exact ⟨d, (hobj _).trans (if_pos rfl)⟩
    · rw [hobj, if_neg (hnew m i hi)]
      exact h.live i m hi
  · intro m e hm
    rw [hobj] at hm
    split_ifs at hm with hm'
    · refine ⟨p.handles.length, ?_⟩
      rw [Process.handle, hhandle, if_pos rfl, hm']
    · obtain ⟨i, hi⟩ := h.held m e hm
      refine ⟨i, ?_⟩
      rw [Process.handle, hhandle, if_neg, hi]
      rintro rfl
      simp [Process.handle] at hi
  · intro i j m hi hj
    rw [Process.handle, hhandle] at hi hj
    split_ifs at hi hj with hil hjl hjl
    · exact hil.trans hjl.symm
    · exact absurd (Option.some.inj hi).symm (hnew m j hj)
    · exact absurd (Option.some.inj hj).symm (hnew m i hi)
    · exact h.once i j m hi hj

theorem Held.init (h : Held p) (path : String) (opened eventfd : Except String Nat)
    (ioctl : Except String Unit) : Held (p.init path opened eventfd ioctl) := by
  cases opened with
  | error => exact h.init_fails rfl
  | ok fd =>
    cases eventfd with
    | error => exact h.init_fails rfl
    | ok evtfd =>
      cases ioctl with
      | error => exact h.init_fails rfl
      | ok => exact h.init_works rfl

theorem Held.close (h : Held p) (i : Nat) : Held (p.close i) := by
  cases hi : p.handle i with
  | none =>
    simp only [Process.close, hi]
    exact h
  | some n =>
    obtain ⟨d, hd⟩ := h.live i n hi
    have hobj (m : Nat) : (Lifecycle.step p.world (.destroy n)).obj m =
        if m = n then none else p.world.obj m := by
      simp only [Lifecycle.step, hd]
      exact slot_set hd none m
    have hhandle (j : Nat) : (p.close i).handle j = if j = i then none else p.handle j := by
      simp only [Process.close, hi]
      exact slot_set hi none j
    have hworld : (p.close i).world = Lifecycle.step p.world (.destroy n) := by
      simp only [Process.close, hi, eduClose]
    constructor
    · intro j m hj
      rw [hhandle] at hj
      split_ifs at hj with hji
      have hmn : m ≠ n := fun hmn => hji (h.once j i n (hmn ▸ hj) hi)
      rw [hworld, hobj, if_neg hmn]
      exact h.live j m hj
    · intro m d' hm
      rw [hworld, hobj] at hm
      split_ifs at hm with hmn
      obtain ⟨j, hj⟩ := h.held m d' hm
      refine ⟨j, ?_⟩
      rw [hhandle, if_neg fun hji => hmn ?_]
      · exact hj
      · rw [hji, hi] at hj
        exact (Option.some.inj hj).symm
    · intro j k m hj hk
      rw [hhandle] at hj hk
      split_ifs at hj hk
      exact h.once j k m hj hk

/-- A method changes the object that it is called on, if anything. -/
theorem Held.pass (h : Held p) (i : Nat) {f : World → Nat → World}
    (hf : ∀ n d, p.world.obj n = some d →
      ∃ d', ∀ m, (f p.world n).obj m = if m = n then some d' else p.world.obj m) :
    Held (p.pass i f) := by
  cases hi : p.handle i with
  | none =>
    simp only [Process.pass, hi]
    exact ⟨h.live, h.held, h.once⟩
  | some n =>
    obtain ⟨d, hd⟩ := h.live i n hi
    obtain ⟨d', hd'⟩ := hf n d hd
    simp only [Process.pass, hi]
    refine ⟨fun j m hj => ?_, fun m e hm => ?_, h.once⟩
    · obtain ⟨e, he⟩ := h.live j m hj
      rw [hd']
      split_ifs
      · exact ⟨d', rfl⟩
      · exact ⟨e, he⟩
    · rw [hd'] at hm
      split_ifs at hm with hmn
      · exact ⟨i, hmn ▸ hi⟩
      · exact h.held m e hm

theorem Held.looks (h : Held p) (i : Nat) : Held (p.pass i fun w _ => w) := by
  refine h.pass i fun n d hd => ⟨d, fun m => ?_⟩
  split_ifs with hmn
  · rw [hmn, hd]
  · rfl

theorem Held.step (h : Held p) (op : Op) : Held (step p op) := by
  unfold Python.step
  split_ifs with hcrashed
  · exact h
  · cases op with
    | init path opened eventfd ioctl => exact h.init path opened eventfd ioctl
    | close i => exact h.close i
    | mapRings i mmap =>
      refine h.pass i fun n d hd => ⟨(d.mapRings p.world.kernel mmap).2.1, fun m => ?_⟩
      simp only [eduMapRings, Lifecycle.step, hd]
      exact slot_set hd _ m
    | unmapRings i =>
      refine h.pass i fun n d hd => ⟨(d.unmapRings p.world.kernel).2, fun m => ?_⟩
      simp only [eduUnmapRings, Lifecycle.step, hd]
      exact slot_set hd _ m
    | enter => exact h
    | waitCompletion i timeout =>
      dsimp only
      split_ifs
      · exact h.looks i
      · exact h
    | use i => exact h.looks i

/-! ## The whole process -/

/-- Every operation on the C++ objects. -/
def belowAll (p : Process) (ops : List Op) : List Lifecycle.Op := (trace step Process.below p ops).flatten

theorem run_below (p : Process) (ops : List Op) :
    (run step p ops).world = run Lifecycle.step p.world (belowAll p ops) := by
  induction ops generalizing p with
  | nil => rfl
  | cons op ops ih =>
    rw [run_cons, ih, step_below, belowAll, belowAll, trace, List.flatten_cons, run_append]

/-- A process that has not crashed has done all that it was told to. -/
theorem step_crashed (p : Process) (op : Op) :
    (step p op).crashed = false ↔ p.crashed = false ∧ op.UsesOpen p := by
  cases hcrashed : p.crashed with
  | true => simp [step, hcrashed]
  | false =>
    cases op with
    | init => simp [step, hcrashed, Process.init, Op.UsesOpen]
    | close i => cases h : p.handle i <;> simp [step, hcrashed, Process.close, h, Op.UsesOpen]
    | enter => simp [step, hcrashed, Op.UsesOpen]
    | waitCompletion i timeout =>
      cases htime : timeout.polls <;> cases h : p.handle i <;>
        simp [step, hcrashed, Process.pass, h, htime, Op.UsesOpen]
    | mapRings i | unmapRings i | use i =>
      cases h : p.handle i <;> simp [step, hcrashed, Process.pass, h, Op.UsesOpen]

theorem run_crashed (p : Process) (ops : List Op) :
    (run step p ops).crashed = false ↔ p.crashed = false ∧ Along step (fun p op => op.UsesOpen p) p ops := by
  induction ops generalizing p with
  | nil => simp
  | cons op ops ih => rw [run_cons, ih, step_crashed, along_cons, and_assoc]

theorem below_leaks (hcrashed : p.crashed = false) (op : Op) :
    (p.below op).flatMap Lifecycle.Op.leaks = [] ↔ ¬ op.ThrowsLate := by
  unfold Process.below Op.ThrowsLate
  rw [if_neg (by simp [hcrashed])]
  cases op with
  | init path opened eventfd ioctl => simp [Lifecycle.Op.leaks_eq_nil]
  | close i | mapRings i | unmapRings i => cases p.handle i <;> simp [Lifecycle.Op.leaks]
  | enter | waitCompletion | use => simp

/-- Only a constructor that throws late leaks, and nothing is done after a crash. -/
theorem belowAll_leaks {ops : List Op} (hrun : (run step p ops).crashed = false) :
    (belowAll p ops).flatMap Lifecycle.Op.leaks = [] ↔ ∀ op ∈ ops, ¬ op.ThrowsLate := by
  induction ops generalizing p with
  | nil => simp [belowAll, trace]
  | cons op ops ih =>
    have hcrashed := ((run_crashed p (op :: ops)).mp hrun).1
    rw [belowAll, trace, List.flatten_cons, List.flatMap_append, List.append_eq_nil_iff,
      below_leaks hcrashed, List.forall_mem_cons]
    exact and_congr_right fun _ => ih hrun

theorem Held.destroyed (h : Held p) (hclosed : ∀ i, p.handle i = none) : p.world.Destroyed := by
  intro o ho
  cases o with
  | none => rfl
  | some d =>
    obtain ⟨n, hn⟩ := List.mem_iff_getElem?.mp ho
    obtain ⟨i, hi⟩ := h.held n d (Lifecycle.obj_eq_some.mpr hn)
    rw [hclosed i] at hi
    cases hi

end

/-- **A Python process never closes a descriptor twice nor keeps a pointer to an object that is gone.**
It crashes exactly if a method that follows the pointer comes after `close`, and a process that has
closed all its objects has given back all that it opened exactly if no constructor failed to register
its eventfd. -/
theorem python_owns_once (ops : List Op) :
    let p := run step .start ops
    Held p ∧ p.world.kernel.strays = [] ∧
      (p.crashed = false ↔ Along step (fun p op => op.UsesOpen p) .start ops) ∧
      (p.crashed = false → (∀ i, p.handle i = none) →
        (p.world.AllReleased ↔ ∀ op ∈ ops, ¬ op.ThrowsLate)) := by
  intro p
  have hheld : Held p := run_inv (fun _ op h => h.step op) held_start
  obtain ⟨leaked, hcount, hbalanced⟩ := Lifecycle.balanced_start.after (belowAll .start ops)
  have hworld : p.world = run Lifecycle.step .start (belowAll .start ops) := run_below .start ops
  rw [← hworld] at hbalanced
  refine ⟨hheld, hbalanced.sound.strays, ?_, ?_⟩
  · exact (run_crashed .start ops).trans (and_iff_right rfl)
  · intro hcrashed hclosed
    have hend := hheld.destroyed hclosed
    rw [← belowAll_leaks hcrashed]
    constructor
    · intro hall
      rw [List.eq_nil_iff_forall_not_mem]
      intro r hr
      have hpos := List.count_pos_iff.mpr hr
      have htotal := hbalanced.destroyed hend r
      rw [hall r, hcount] at htotal
      omega
    · intro hnone r
      have htotal := hbalanced.destroyed hend r
      rw [hcount, hnone] at htotal
      exact htotal.symm

end PcieDriver.Edu.Python
