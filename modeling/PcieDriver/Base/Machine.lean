import Mathlib.Data.List.Basic

/-!
# Runs of a machine

A machine is a total step function. An event that is not enabled leaves the state as it was.
`Along` speaks of every step of a run, `Always` of every state that it passes through.
-/

namespace Base

variable {σ τ ε ι : Type}

def run (step : σ → ε → σ) (s : σ) (es : List ε) : σ := es.foldl step s

/-- Every step of the run meets `P`, given the state before it and its event. -/
def Along (step : σ → ε → σ) (P : σ → ε → Prop) : σ → List ε → Prop
  | _, [] => True
  | s, e :: es => P s e ∧ Along step P (step s e) es

/-- Every state of the run meets `Q`, the first and the last included. -/
def Always (step : σ → ε → σ) (Q : σ → Prop) : σ → List ε → Prop
  | s, [] => Q s
  | s, e :: es => Q s ∧ Always step Q (step s e) es

section
variable {step : σ → ε → σ} {P P' : σ → ε → Prop} {Q Q' : σ → Prop} {s : σ} {e : ε} {es : List ε}

@[simp] theorem run_nil : run step s [] = s := rfl
@[simp] theorem run_cons : run step s (e :: es) = run step (step s e) es := rfl

theorem run_append (es' : List ε) : run step s (es ++ es') = run step (run step s es) es' :=
  List.foldl_append ..

@[simp] theorem along_nil : Along step P s [] := trivial
@[simp] theorem along_cons : Along step P s (e :: es) ↔ P s e ∧ Along step P (step s e) es := Iff.rfl
@[simp] theorem always_nil : Always step Q s [] ↔ Q s := Iff.rfl
@[simp] theorem always_cons :
    Always step Q s (e :: es) ↔ Q s ∧ Always step Q (step s e) es := Iff.rfl

theorem along_append (es' : List ε) :
    Along step P s (es ++ es') ↔ Along step P s es ∧ Along step P (run step s es) es' := by
  induction es generalizing s with
  | nil => simp
  | cons e es ih => simp [ih, and_assoc]

theorem Always.first (h : Always step Q s es) : Q s := by
  cases es with
  | nil => exact h
  | cons e es => exact h.1

theorem Always.last (h : Always step Q s es) : Q (run step s es) := by
  induction es generalizing s with
  | nil => exact h
  | cons e es ih => exact ih h.2

theorem Always.mono (h : Always step Q s es) (himp : ∀ s, Q s → Q' s) : Always step Q' s es := by
  induction es generalizing s with
  | nil => exact himp s h
  | cons e es ih => exact ⟨himp s h.1, ih h.2⟩

theorem Along.mono (h : Along step P s es) (himp : ∀ s e, P s e → P' s e) : Along step P' s es := by
  induction es generalizing s with
  | nil => trivial
  | cons e es ih => exact ⟨himp s e h.1, ih h.2⟩

theorem Along.and (h : Along step P s es) (h' : Along step P' s es) :
    Along step (fun s e => P s e ∧ P' s e) s es := by
  induction es generalizing s with
  | nil => trivial
  | cons e es ih => exact ⟨⟨h.1, h'.1⟩, ih h.2 h'.2⟩

/-- What a step guarantees from `Q` holds at every step of a run that stays in `Q`. -/
theorem Along.of_always (h : Always step Q s es) (hp : Along step P s es)
    (himp : ∀ s e, Q s → P s e → P' s e) : Along step P' s es := by
  induction es generalizing s with
  | nil => trivial
  | cons e es ih => exact ⟨himp s e h.1 hp.1, ih h.2 hp.2⟩

theorem Always.steps (h : Always step Q s es) :
    Along step (fun s e => Q s ∧ Q (step s e)) s es := by
  induction es generalizing s with
  | nil => trivial
  | cons e es ih => exact ⟨⟨h.1, h.2.first⟩, ih h.2⟩

/-- **The induction over a run**: what every allowed step keeps, every state of the run has. -/
theorem Always.of_step {I : σ → Prop} (hstep : ∀ s e, I s → P s e → I (step s e)) (h0 : I s)
    (hp : Along step P s es) : Always step I s es := by
  induction es generalizing s with
  | nil => exact h0
  | cons e es ih => exact ⟨h0, ih (hstep s e h0 hp.1) hp.2⟩

theorem Always.of_inv {I : σ → Prop} (hstep : ∀ s e, I s → I (step s e)) (h0 : I s) :
    Always step I s es := by
  induction es generalizing s with
  | nil => exact h0
  | cons e es ih => exact ⟨h0, ih (hstep s e h0)⟩

theorem always_iff_along :
    Always step Q s es ↔ Q s ∧ Along step (fun s e => Q (step s e)) s es := by
  induction es generalizing s with
  | nil => simp
  | cons e es ih => rw [always_cons, along_cons, ih]

/-- Two conditions that agree as long as `I` holds, and that keep it, agree on whole runs. -/
theorem along_iff {I : σ → Prop} (hiff : ∀ s e, I s → (P s e ↔ P' s e))
    (hstep : ∀ s e, I s → P s e → I (step s e)) (h0 : I s) :
    Along step P s es ↔ Along step P' s es := by
  induction es generalizing s with
  | nil => exact Iff.rfl
  | cons e es ih =>
    rw [along_cons, along_cons, ← hiff s e h0]
    exact and_congr_right fun hp => ih (hstep s e h0 hp)

theorem run_inv {I : σ → Prop} (hstep : ∀ s e, I s → I (step s e)) (h0 : I s) :
    I (run step s es) :=
  (Always.of_inv hstep h0).last

/-- A field that some events overwrite holds what the last of them wrote. -/
theorem run_field {I : σ → Prop} (field : σ → τ) (new : ε → Option τ)
    (hinv : ∀ s e, I s → I (step s e))
    (hfield : ∀ s e, I s → field (step s e) = (new e).getD (field s)) (h0 : I s) :
    field (run step s es) = (es.filterMap new).getLast?.getD (field s) := by
  induction es generalizing s with
  | nil => rfl
  | cons e es ih =>
    rw [run_cons, ih (hinv s e h0), hfield s e h0]
    cases hnew : new e with
    | none => rw [List.filterMap_cons_none hnew, Option.getD_none]
    | some x =>
      rw [List.filterMap_cons_some hnew, List.getLast?_cons, Option.getD_some, Option.getD_some]

theorem along_of_forall (h : ∀ s, ∀ e ∈ es, P s e) : Along step P s es := by
  induction es generalizing s with
  | nil => trivial
  | cons e es ih => exact ⟨h s e (by simp), ih fun s e he => h s e (by simp [he])⟩

end

/-! ## Simulation -/

/-- What each step of the run means to another machine. -/
def trace (step : σ → ε → σ) (op : σ → ε → ι) : σ → List ε → List ι
  | _, [] => []
  | s, e :: es => op s e :: trace step op (step s e) es

theorem trace_congr {κ : Type} {step : σ → ε → σ} {obs : σ → ε → ι} {label : ε → κ}
    {R : σ → σ → Prop}
    (hstep : ∀ s t e e', R s t → label e = label e' →
      R (step s e) (step t e') ∧ obs s e = obs t e')
    {s t : σ} (h0 : R s t) {es es' : List ε} (h : es.map label = es'.map label) :
    trace step obs s es = trace step obs t es' := by
  induction es generalizing es' s t with
  | nil =>
    rw [List.map_nil] at h
    rw [List.map_eq_nil_iff.mp h.symm]
    rfl
  | cons e es ih =>
    cases es' with
    | nil => cases h
    | cons e' es' =>
      obtain ⟨hlabel, hrest⟩ := List.cons.inj h
      obtain ⟨hnext, hobs⟩ := hstep s t e e' h0 hlabel
      rw [trace, trace, hobs, ih hnext hrest]

/-- Machines that take the same steps and show the same have the same runs. -/
theorem trace_ext {step step' : σ → ε → σ} {obs obs' : σ → ε → ι}
    (hstep : ∀ s e, step s e = step' s e) (hobs : ∀ s e, obs s e = obs' s e) (s : σ) (es : List ε) :
    trace step obs s es = trace step' obs' s es := by
  induction es generalizing s with
  | nil => rfl
  | cons e es ih => rw [trace, trace, ih, hstep, hobs]

/-- Two machines look the same exactly as long as no event comes that tells them apart. -/
theorem trace_eq_iff {step : σ → ε → σ} {obs : σ → ε → ι} {step' : τ → ε → τ} {obs' : τ → ε → ι}
    {R : σ → τ → Prop} {P : ε → Prop}
    (hsame : ∀ s t e, R s t → P e → R (step s e) (step' t e) ∧ obs s e = obs' t e)
    (hdiffers : ∀ s t e, R s t → ¬ P e → obs s e ≠ obs' t e) {s : σ} {t : τ} (h0 : R s t)
    (es : List ε) : trace step obs s es = trace step' obs' t es ↔ ∀ e ∈ es, P e := by
  induction es generalizing s t with
  | nil => simp [trace]
  | cons e es ih =>
    rw [trace, trace, List.cons.injEq, List.forall_mem_cons]
    by_cases he : P e
    · obtain ⟨hnext, hobs⟩ := hsame s t e h0 he
      rw [ih hnext]
      exact and_congr_left fun _ => iff_of_true hobs he
    · exact iff_of_false (fun h => hdiffers s t e h0 he h.1) (fun h => he h.1)

theorem run_simulates {step : σ → ε → σ} {op : σ → ε → ι} {next : τ → ι → τ} {R : σ → τ → Prop}
    (hstep : ∀ s t e, R s t → R (step s e) (next t (op s e))) {s : σ} {t : τ} (h0 : R s t)
    (es : List ε) : R (run step s es) (run next t (trace step op s es)) := by
  induction es generalizing s t with
  | nil => exact h0
  | cons e es ih => exact ih (hstep s t e h0)

/-- Where one state determines the other and each event has one meaning, so do whole runs. -/
theorem run_image {step : σ → ε → σ} {op : ε → ι} {next : τ → ι → τ} {f : τ → σ}
    (hstep : ∀ t e, step (f t) e = f (next t (op e))) (t : τ) (es : List ε) :
    run step (f t) es = f (run next t (es.map op)) := by
  induction es generalizing t with
  | nil => rfl
  | cons e es ih => rw [run_cons, hstep, ih, List.map_cons, run_cons]

/-- A part of the state that moves by itself does so over whole runs of the events that are allowed. -/
theorem run_follows {I : σ → Prop} {P : ε → Prop} {step : σ → ε → σ} {next : τ → ε → τ} (f : σ → τ)
    (hstep : ∀ s e, I s → P e → I (step s e) ∧ f (step s e) = next (f s) e) {s : σ} (h0 : I s)
    {es : List ε} (hes : ∀ e ∈ es, P e) :
    I (run step s es) ∧ f (run step s es) = run next (f s) es := by
  induction es generalizing s with
  | nil => exact ⟨h0, rfl⟩
  | cons e es ih =>
    rw [List.forall_mem_cons] at hes
    obtain ⟨hinv, hf⟩ := hstep s e h0 hes.1
    rw [run_cons, run_cons, ← hf]
    exact ih hinv hes.2

/-! ## Steps in order -/

/-- What is left to do after the event: the next step is done by the event that it waits for. -/
def advance [DecidableEq ε] : List ε → ε → List ε
  | [], _ => []
  | next :: todo, e => if e = next then todo else next :: todo

theorem advance_of_ne [DecidableEq ε] {todo : List ε} {e : ε} (h : todo.head? ≠ some e) :
    advance todo e = todo := by
  cases todo with
  | nil => rfl
  | cons next todo => exact if_neg fun he => h (congrArg some he.symm)

theorem run_advance_skip [DecidableEq ε] {next : ε} {todo es : List ε} (h : next ∉ es) :
    run advance (next :: todo) es = next :: todo := by
  induction es with
  | nil => rfl
  | cons e es ih =>
    rw [List.mem_cons, not_or] at h
    rw [run_cons, advance_of_ne (by simpa using h.1), ih h.2]

/-- **A task is done if and only if its steps have come in order**, whatever came between them. -/
theorem run_advance_iff [DecidableEq ε] (todo es : List ε) :
    run advance todo es = [] ↔ todo.Sublist es := by
  induction es generalizing todo with
  | nil => simp
  | cons e es ih =>
    rw [run_cons, ih]
    cases todo with
    | nil => simp [advance]
    | cons next todo =>
      simp only [advance]
      split_ifs with he
      · rw [he, List.cons_sublist_cons]
      · refine ⟨fun h => h.cons e, fun h => ?_⟩
        cases h with
        | cons _ h => exact h
        | cons_cons => exact absurd rfl he

end Base
