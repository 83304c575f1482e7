import PcieDriver.Base.Machine

/-!
# Drivers that are bound and unbound

A probe gets resources one at a time, and gives them back if it fails. A removal gives them all back.
Users come in by a door while it is there, and may stay on after that. Other visits last only as long
as the resource that they come by.
-/

namespace Base

variable {ρ κ δ : Type} [DecidableEq ρ]

instance {σ ε : Type} (step : σ → ε → σ) (P : σ → ε → Prop) [∀ s e, Decidable (P s e)] :
    ∀ s es, Decidable (Along step P s es)
  | _, [] => .isTrue trivial
  | s, e :: es =>
    have := instDecidableAlong step P (step s e) es
    inferInstanceAs (Decidable (_ ∧ _))

/-! ## Transfers -/

inductive Transfer (ρ : Type)
  | get (r : ρ)
  | put (r : ρ)
  deriving DecidableEq

namespace Transfer

/-- What is held after the transfer. -/
def after (held : List ρ) : Transfer ρ → List ρ
  | .get r => r :: held
  | .put r => held.erase r

/-- Nothing is got twice or before what it needs, and nothing is put before what needs it. What is put
was held, unless `lax` has it. -/
def Orderly (needs : ρ → List ρ) (lax : List ρ) (held : List ρ) : Transfer ρ → Prop
  | .get r => r ∉ held ∧ ∀ r' ∈ needs r, r' ∈ held
  | .put r => (r ∈ held ∨ r ∈ lax) ∧ ∀ r' ∈ held, r ∉ needs r'

instance (needs : ρ → List ρ) (lax held : List ρ) : ∀ t, Decidable (Orderly needs lax held t)
  | .get r => inferInstanceAs (Decidable (r ∉ held ∧ ∀ r' ∈ needs r, r' ∈ held))
  | .put r => inferInstanceAs (Decidable ((r ∈ held ∨ r ∈ lax) ∧ ∀ r' ∈ held, r ∉ needs r'))

/-- The transfer puts what is not held. -/
def stray (held : List ρ) : Transfer ρ → List ρ
  | .get _ => []
  | .put r => if r ∈ held then [] else [r]

end Transfer

/-- Whatever is held has what it needs, and is held once. -/
structure Grounded (needs : ρ → List ρ) (held : List ρ) : Prop where
  needs : ∀ r ∈ held, ∀ r' ∈ needs r, r' ∈ held
  once : held.Nodup

omit [DecidableEq ρ] in
theorem grounded_nil (needs : ρ → List ρ) : Grounded needs [] := ⟨nofun, .nil⟩

theorem Grounded.after {needs : ρ → List ρ} {lax held : List ρ} (h : Grounded needs held)
    {t : Transfer ρ} (ht : t.Orderly needs lax held) : Grounded needs (t.after held) := by
  cases t with
  | get r =>
    obtain ⟨hnew, hhas⟩ := ht
    constructor
    · intro q hq r' hr'
      rcases List.mem_cons.mp hq with rfl | hq
      · exact List.mem_cons_of_mem _ (hhas r' hr')
      · exact List.mem_cons_of_mem _ (h.needs q hq r' hr')
    · exact List.nodup_cons.mpr ⟨hnew, h.once⟩
  | put r =>
    constructor
    · intro q hq r' hr'
      have hheld := List.mem_of_mem_erase hq
      have hne : r' ≠ r := by
        rintro rfl
        exact ht.2 q hheld hr'
      exact (List.mem_erase_of_ne hne).mpr (h.needs q hheld r' hr')
    · exact h.once.erase r

theorem Transfer.Orderly.stray {needs : ρ → List ρ} {lax held : List ρ} {t : Transfer ρ}
    (ht : t.Orderly needs lax held) : ∀ r ∈ t.stray held, r ∈ lax := by
  cases t with
  | get => nofun
  | put q =>
    intro r hr
    simp only [Transfer.stray] at hr
    split_ifs at hr with hheld
    · cases hr
    · rw [List.mem_singleton.mp hr]
      exact ht.1.resolve_left hheld

/-! ## The machine -/

/-- What a probe does, and what is remembered of it or its error number. -/
structure Script (ρ δ : Type) where
  transfers : List (Transfer ρ)
  result : Except Nat δ
  deriving DecidableEq

namespace Script

variable {ρ δ : Type}

def got (r : ρ) (rest : Script ρ δ) : Script ρ δ := { rest with transfers := .get r :: rest.transfers }

/-- The probe goes on without `r` too. -/
def attempt (there : Bool) (r : ρ) (rest : Bool → Script ρ δ) : Script ρ δ :=
  if there then (rest true).got r else rest false

def fail (undo : List (Transfer ρ)) (err : Nat) : Script ρ δ := ⟨undo, .error err⟩

def done (m : δ) : Script ρ δ := ⟨[], .ok m⟩

def bound (script : Script ρ δ) : Option δ := script.result.toOption

end Script

/-- `lax` is what the driver may put without holding it. -/
structure Driver (ρ κ δ : Type) where
  probe : κ → Script ρ δ
  remove : δ → List (Transfer ρ)
  needs : ρ → List ρ
  lax : List ρ
  door : ρ

/-- `todo` is what is left of the probe or the removal under way. `round` counts the probes, and each
user comes with the round in which it came in. -/
structure Binding (ρ δ : Type) where
  todo : List (Transfer ρ)
  bound : Option δ
  held : List ρ
  strays : List ρ
  round : Nat
  users : List Nat

def unbound (ρ δ : Type) : Binding ρ δ := ⟨[], none, [], [], 0, []⟩

inductive BindEvent (ρ κ : Type)
  | bind (k : κ)
  | unbind
  | transfer
  | enter
  | use (i : Nat)
  | leave (i : Nat)
  | visit (r : ρ)
  deriving DecidableEq

namespace Driver

variable (D : Driver ρ κ δ)

def step (s : Binding ρ δ) : BindEvent ρ κ → Binding ρ δ
  | .bind k =>
    if s.todo = [] ∧ s.bound.isNone then
      { s with todo := (D.probe k).transfers, bound := (D.probe k).bound, round := s.round + 1 }
    else s
  | .unbind =>
    if s.todo = [] then
      match s.bound with
      | some m => { s with todo := D.remove m, bound := none }
      | none => s
    else s
  | .transfer =>
    match s.todo with
    | [] => s
    | t :: todo => { s with todo, held := t.after s.held, strays := t.stray s.held ++ s.strays }
  | .enter => if D.door ∈ s.held then { s with users := s.round :: s.users } else s
  | .leave i => { s with users := s.users.eraseIdx i }
  | .use _ | .visit _ => s

/-- Everything that a step can do. -/
inductive Effect (s : Binding ρ δ) : BindEvent ρ κ → Binding ρ δ → Prop
  | skip (e) : Effect s e s
  | bind (k) (hidle : s.todo = []) (hnone : s.bound = none) : Effect s (.bind k)
      { s with todo := (D.probe k).transfers, bound := (D.probe k).bound, round := s.round + 1 }
  | unbind (m) (hidle : s.todo = []) (hbound : s.bound = some m) : Effect s .unbind
      { s with todo := D.remove m, bound := none }
  | transfer (t todo) (htodo : s.todo = t :: todo) : Effect s .transfer
      { s with todo, held := t.after s.held, strays := t.stray s.held ++ s.strays }
  | enter (hdoor : D.door ∈ s.held) : Effect s .enter { s with users := s.round :: s.users }
  | leave (i) : Effect s (.leave i) { s with users := s.users.eraseIdx i }

theorem step_effect (s : Binding ρ δ) (e : BindEvent ρ κ) : D.Effect s e (D.step s e) := by
  cases e with
  | bind k =>
    simp only [step]
    split_ifs with hfree
    · exact .bind k hfree.1 (Option.isNone_iff_eq_none.mp hfree.2)
    · exact .skip _
  | unbind =>
    simp only [step]
    split_ifs with hidle
    · split
      · next m hbound => exact .unbind m hidle hbound
      · exact .skip _
    · exact .skip _
  | transfer =>
    simp only [step]
    split
    · exact .skip _
    · next t todo htodo => exact .transfer t todo htodo
  | enter =>
    simp only [step]
    split_ifs with hdoor
    · exact .enter hdoor
    · exact .skip _
  | leave i => exact .leave i
  | use | visit => exact .skip _

/-- What the event touches is there. A user touches what the door needed when it came in. -/
def Safe (s : Binding ρ δ) : BindEvent ρ κ → Prop
  | .enter => D.door ∈ s.held → ∀ r ∈ D.needs D.door, r ∈ s.held
  | .use i => ∀ n, s.users[i]? = some n → n = s.round ∧ ∀ r ∈ D.needs D.door, r ∈ s.held
  | .visit r => r ∈ s.held → ∀ r' ∈ D.needs r, r' ∈ s.held
  | _ => True

/-- The door is taken away only when nobody is in. -/
def DoorClear (s : Binding ρ δ) : BindEvent ρ κ → Prop
  | .transfer => s.todo.head? = some (.put D.door) → s.users = []
  | _ => True

/-- Users count as long as they are in: a removal waits for them, and nobody comes in after it has
begun. -/
def Counted (s : Binding ρ δ) : BindEvent ρ κ → Prop
  | .unbind => s.users = []
  | .enter => s.bound ≠ none
  | _ => True

instance (s : Binding ρ δ) : ∀ e : BindEvent ρ κ, Decidable (Counted s e)
  | .unbind => inferInstanceAs (Decidable (s.users = []))
  | .enter => inferInstanceAs (Decidable (s.bound ≠ none))
  | .bind _ | .transfer | .use _ | .leave _ | .visit _ => .isTrue trivial

abbrev Orderly : List ρ → Transfer ρ → Prop := Transfer.Orderly D.needs D.lax

/-- What is held in the end, and what a removal then makes of it. -/
def Ends (held : List ρ) : Option δ → Prop
  | none => held = []
  | some m => D.door ∈ held ∧
    Along Transfer.after D.Orderly held (D.remove m) ∧ run Transfer.after held (D.remove m) = []

instance (held : List ρ) : ∀ bound, Decidable (D.Ends held bound)
  | none => inferInstanceAs (Decidable (held = []))
  | some _ => inferInstanceAs (Decidable (_ ∧ _))

/-- From what is held, the rest of the probe and the removal after it are in order, and give
everything back. A probe that does not fail never puts the door. -/
structure LawfulFrom (held : List ρ) (script : Script ρ δ) : Prop where
  orderly : Along Transfer.after D.Orderly held script.transfers
  ends : D.Ends (run Transfer.after held script.transfers) script.bound
  stays : script.bound ≠ none → .put D.door ∉ script.transfers

def Lawful (good : κ → Prop) : Prop := ∀ k, good k → D.LawfulFrom [] (D.probe k)

def GoodBind (good : κ → Prop) : BindEvent ρ κ → Prop
  | .bind k => good k
  | _ => True

instance (good : κ → Prop) [DecidablePred good] :
    ∀ e : BindEvent ρ κ, Decidable (GoodBind good e)
  | .bind k => inferInstanceAs (Decidable (good k))
  | .unbind | .transfer | .enter | .use _ | .leave _ | .visit _ => .isTrue trivial

end Driver

namespace Driver

variable {D : Driver ρ κ δ}

/-! ## Rules for probes -/

section
variable {held : List ρ} {r : ρ} {rest : Script ρ δ} {undo : List (Transfer ρ)} {err : Nat} {m : δ}

theorem LawfulFrom.got (hr : (Transfer.get r).Orderly D.needs D.lax held)
    (hrest : D.LawfulFrom (r :: held) rest) : D.LawfulFrom held (rest.got r) :=
  ⟨⟨hr, hrest.orderly⟩, hrest.ends, fun hsome hput => hrest.stays hsome (by simpa [Script.got] using hput)⟩

theorem LawfulFrom.fail (hundo : Along Transfer.after D.Orderly held undo)
    (hnothing : run Transfer.after held undo = []) : D.LawfulFrom held (.fail undo err) :=
  ⟨hundo, hnothing, fun hsome => absurd rfl hsome⟩

theorem LawfulFrom.done (hends : D.Ends held (some m)) : D.LawfulFrom held (.done m) :=
  ⟨trivial, hends, fun _ => List.not_mem_nil⟩

theorem LawfulFrom.attempt {there : Bool} {next : Bool → Script ρ δ}
    (hr : (Transfer.get r).Orderly D.needs D.lax held)
    (hnext : ∀ b, D.LawfulFrom ((if b then [r] else []) ++ held) (next b)) :
    D.LawfulFrom held (.attempt there r next) := by
  cases there with
  | true => exact .got hr (hnext true)
  | false => exact hnext false

theorem LawfulFrom.ite {p : Prop} [Decidable p] {script : Script ρ δ}
    (hyes : D.LawfulFrom held script) (hno : D.LawfulFrom held rest) :
    D.LawfulFrom held (if p then script else rest) := by
  split_ifs
  · exact hyes
  · exact hno

end

/-! ## What every run keeps -/

structure Kept (D : Driver ρ κ δ) (s : Binding ρ δ) : Prop where
  grounded : Grounded D.needs s.held
  strays : ∀ r ∈ s.strays, r ∈ D.lax
  orderly : Along Transfer.after D.Orderly s.held s.todo
  ends : D.Ends (run Transfer.after s.held s.todo) s.bound

omit [DecidableEq ρ] in
theorem good_of_true (e : BindEvent ρ κ) : GoodBind (fun _ => True) e := by cases e <;> trivial

theorem kept_unbound : Kept D (unbound ρ δ) where
  grounded := grounded_nil _
  strays := nofun
  orderly := trivial
  ends := rfl

section
variable {good : κ → Prop} {s : Binding ρ δ}

theorem Kept.idle (h : Kept D s) (hidle : s.todo = []) : D.Ends s.held s.bound := by
  have hends := h.ends
  rwa [hidle] at hends

theorem Kept.idle_none (h : Kept D s) (hidle : s.todo = []) (hnone : s.bound = none) :
    s.held = [] := by
  have hends := h.idle hidle
  rwa [hnone] at hends

theorem Kept.step (hlaw : D.Lawful good) (h : Kept D s) {e : BindEvent ρ κ}
    (he : GoodBind good e) : Kept D (D.step s e) := by
  have heff := D.step_effect s e
  generalize D.step s e = s' at heff ⊢
  cases heff with
  | skip => exact h
  | bind k hidle hnone =>
    have hheld : s.held = [] := h.idle_none hidle hnone
    refine ⟨h.grounded, h.strays, ?_, ?_⟩
    · rw [hheld]
      exact (hlaw k he).orderly
    · rw [hheld]
      exact (hlaw k he).ends
  | unbind m hidle hbound =>
    have hends := h.idle hidle
    rw [hbound] at hends
    exact ⟨h.grounded, h.strays, hends.2.1, hends.2.2⟩
  | transfer t todo htodo =>
    have horderly := h.orderly
    have hends := h.ends
    rw [htodo] at horderly hends
    refine ⟨h.grounded.after horderly.1, fun r hr => ?_, horderly.2, hends⟩
    rcases List.mem_append.mp hr with hr | hr
    · exact horderly.1.stray r hr
    · exact h.strays r hr
  | enter | leave => exact ⟨h.grounded, h.strays, h.orderly, h.ends⟩

/-- When no script is under way, the door is there exactly if the driver is bound. -/
theorem Kept.door_iff (h : Kept D s) (hidle : s.todo = []) : D.door ∈ s.held ↔ s.bound ≠ none := by
  have hends := h.idle hidle
  cases hbound : s.bound with
  | none =>
    rw [h.idle_none hidle hbound]
    exact iff_of_false List.not_mem_nil fun hne => hne rfl
  | some m =>
    rw [hbound] at hends
    exact iff_of_true hends.1 (Option.some_ne_none m)

/-- What a driver must look like from outside in every state. -/
structure Tidy (D : Driver ρ κ δ) (s : Binding ρ δ) : Prop where
  grounded : Grounded D.needs s.held
  strays : ∀ r ∈ s.strays, r ∈ D.lax
  unbound : s.todo = [] → s.bound = none → s.held = []
  bound : s.todo = [] → (D.door ∈ s.held ↔ s.bound ≠ none)

theorem Kept.tidy (h : Kept D s) : Tidy D s := ⟨h.grounded, h.strays, h.idle_none, h.door_iff⟩

theorem always_kept (hlaw : D.Lawful good) {es : List (BindEvent ρ κ)}
    (hes : ∀ e ∈ es, GoodBind good e) : Always D.step (Kept D) (unbound ρ δ) es :=
  Always.of_step (P := fun _ e => GoodBind good e) (fun _ _ h he => h.step hlaw he) kept_unbound
    (along_of_forall fun _ => hes)

/-- **Nothing is left behind**: in every state what is held has what it needs, nothing was put that
was not held, and without a driver nothing is held. -/
theorem always_tidy (hlaw : D.Lawful good) {es : List (BindEvent ρ κ)}
    (hes : ∀ e ∈ es, GoodBind good e) : Always D.step (Tidy D) (unbound ρ δ) es :=
  (always_kept hlaw hes).mono fun _ => Kept.tidy

/-! ## Users -/

/-- Whoever is in came in this round, by a door that is still there. -/
structure Inside (D : Driver ρ κ δ) (s : Binding ρ δ) : Prop where
  round : ∀ n ∈ s.users, n = s.round
  door : s.users ≠ [] → D.door ∈ s.held

theorem Inside.step (h : Inside D s) (hkept : Kept D s) {e : BindEvent ρ κ}
    (he : D.DoorClear s e) : Inside D (D.step s e) := by
  have heff := D.step_effect s e
  generalize D.step s e = s' at heff ⊢
  cases heff with
  | skip => exact h
  | bind k hidle hnone =>
    have hnobody : s.users = [] := by
      by_contra hin
      have hdoor := h.door hin
      rw [hkept.idle_none hidle hnone] at hdoor
      cases hdoor
    refine ⟨?_, h.door⟩
    show ∀ n ∈ s.users, n = s.round + 1
    rw [hnobody]
    nofun
  | unbind => exact ⟨h.round, h.door⟩
  | transfer t todo htodo =>
    refine ⟨h.round, fun hin => ?_⟩
    have hdoor := h.door hin
    cases t with
    | get r => exact List.mem_cons_of_mem _ hdoor
    | put r =>
      have hne : D.door ≠ r := by
        rintro rfl
        exact hin (he (by rw [htodo]; rfl))
      exact (List.mem_erase_of_ne hne).mpr hdoor
  | enter hdoor =>
    refine ⟨fun n hn => ?_, fun _ => hdoor⟩
    rcases List.mem_cons.mp hn with rfl | hn
    · rfl
    · exact h.round n hn
  | leave i =>
    refine ⟨fun n hn => h.round n (List.mem_of_mem_eraseIdx hn), fun hin => h.door ?_⟩
    intro hnone
    refine hin ?_
    show s.users.eraseIdx i = []
    rw [hnone, List.eraseIdx_nil]

theorem Inside.safe (h : Inside D s) (hkept : Kept D s) (e : BindEvent ρ κ) : D.Safe s e := by
  cases e with
  | enter => exact fun hdoor => hkept.grounded.needs _ hdoor
  | use i =>
    intro n hn
    have hmem := List.mem_of_getElem? hn
    exact ⟨h.round n hmem, hkept.grounded.needs _ (h.door (List.ne_nil_of_mem hmem))⟩
  | visit r => exact fun hr => hkept.grounded.needs r hr
  | bind | unbind | transfer | leave => trivial

/-- **Every access finds what it needs** as long as the door is taken away from nobody. -/
theorem along_safe (hlaw : D.Lawful good) {es : List (BindEvent ρ κ)}
    (hes : ∀ e ∈ es, GoodBind good e) (hclear : Along D.step D.DoorClear (unbound ρ δ) es) :
    Along D.step D.Safe (unbound ρ δ) es := by
  have hkept := always_kept hlaw hes
  have hinside : Always D.step (fun s => Kept D s ∧ Inside D s) (unbound ρ δ) es := by
    refine Always.of_step (P := fun s e => GoodBind good e ∧ D.DoorClear s e) ?_ ?_ ?_
    · exact fun s e h he => ⟨h.1.step hlaw he.1, h.2.step h.1 he.2⟩
    · exact ⟨kept_unbound, ⟨nofun, fun hin => absurd rfl hin⟩⟩
    · exact (along_of_forall fun _ => hes).and hclear
  exact Along.of_always hinside hclear fun s e h _ => h.2.safe h.1 e

/-! ## Users that count -/

/-- A driver without a device has no users, and one with a device keeps its door. -/
structure Guarded (D : Driver ρ κ δ) (s : Binding ρ δ) : Prop where
  users : s.bound = none → s.users = []
  door : s.bound ≠ none → .put D.door ∉ s.todo

theorem Guarded.step (hlaw : D.Lawful good) (h : Guarded D s) {e : BindEvent ρ κ}
    (hgood : GoodBind good e) (he : Counted s e) : Guarded D (D.step s e) := by
  have heff := D.step_effect s e
  generalize D.step s e = s' at heff ⊢
  cases heff with
  | skip => exact h
  | bind k hidle hnone => exact ⟨fun _ => h.users hnone, (hlaw k hgood).stays⟩
  | unbind m hidle hbound => exact ⟨fun _ => he, fun hsome => absurd rfl hsome⟩
  | transfer t todo htodo =>
    refine ⟨h.users, fun hsome hput => h.door hsome ?_⟩
    rw [htodo]
    exact List.mem_cons_of_mem _ hput
  | enter hdoor => exact ⟨fun hnone => absurd hnone he, h.door⟩
  | leave i =>
    refine ⟨fun hnone => ?_, h.door⟩
    show s.users.eraseIdx i = []
    rw [h.users hnone, List.eraseIdx_nil]

omit [DecidableEq ρ] in
theorem Guarded.doorClear (h : Guarded D s) (e : BindEvent ρ κ) : D.DoorClear s e := by
  cases e with
  | transfer =>
    intro hput
    apply h.users
    by_contra hsome
    exact h.door hsome (List.mem_of_mem_head? (by rw [hput]; rfl))
  | bind | unbind | enter | use | leave | visit => trivial

/-- **Users that count are never shut out.** -/
theorem along_doorClear (hlaw : D.Lawful good) {es : List (BindEvent ρ κ)}
    (hes : ∀ e ∈ es, GoodBind good e) (hcounted : Along D.step Counted (unbound ρ δ) es) :
    Along D.step D.DoorClear (unbound ρ δ) es := by
  have hguarded : Always D.step (Guarded D) (unbound ρ δ) es := by
    refine Always.of_step (P := fun s e => GoodBind good e ∧ Counted s e) ?_ ?_ ?_
    · exact fun s e h he => h.step hlaw he.1 he.2
    · exact ⟨fun _ => rfl, fun hsome => absurd rfl hsome⟩
    · exact (along_of_forall fun _ => hes).and hcounted
  exact Along.of_always hguarded hcounted fun _ e h _ => h.doorClear e

/-- A driver that a module brings along: it is removed when the module is unloaded. -/
structure Unloadable (D : Driver ρ κ δ) (es : List (BindEvent ρ κ)) : Prop where
  tidy : Always D.step (Tidy D) (unbound ρ δ) es
  safe : Along D.step Counted (unbound ρ δ) es → Along D.step D.Safe (unbound ρ δ) es

theorem unloadable (hlaw : D.Lawful good) {es : List (BindEvent ρ κ)}
    (hes : ∀ e ∈ es, GoodBind good e) : Unloadable D es where
  tidy := always_tidy hlaw hes
  safe := fun hcounted => along_safe hlaw hes (along_doorClear hlaw hes hcounted)

end

end Driver

end Base
