import Mathlib.Algebra.BigOperators.Group.List.Basic
import Mathlib.Data.List.Count

/-!
# A pool of resources

A pool counts what was acquired from it and released to it. A holder owns a list of resources, and
the resources of all holders together are compared with what is live.
-/

namespace Base

variable {ρ α : Type} [DecidableEq ρ]

/-- `strays` are the resources that were released when they were not live. -/
structure Pool (ρ : Type) where
  live : List ρ
  acquired : List ρ
  released : List ρ
  strays : List ρ

namespace Pool

def empty : Pool ρ := ⟨[], [], [], []⟩

def acquire (p : Pool ρ) (r : ρ) : Pool ρ :=
  { p with live := r :: p.live, acquired := r :: p.acquired }

def release (p : Pool ρ) (r : ρ) : Pool ρ :=
  { p with
    live := p.live.erase r
    released := r :: p.released
    strays := if r ∈ p.live then p.strays else r :: p.strays }

def releaseAll (p : Pool ρ) (rs : List ρ) : Pool ρ := rs.foldl release p

/-- All that was acquired is live or was released, and nothing was released that was not live. -/
structure Sound (p : Pool ρ) : Prop where
  total : ∀ r, p.acquired.count r = p.released.count r + p.live.count r
  strays : p.strays = []

section
variable {p : Pool ρ} {rs : List ρ} {r : ρ}

theorem releaseAll_append (rs' : List ρ) :
    p.releaseAll (rs ++ rs') = (p.releaseAll rs).releaseAll rs' :=
  List.foldl_append

theorem sound_empty : Sound (empty : Pool ρ) := ⟨fun _ => rfl, rfl⟩

theorem Sound.acquire (h : Sound p) (r : ρ) : Sound (p.acquire r) where
  total := fun r' => by
    have htotal := h.total r'
    simp only [Pool.acquire, List.count_cons]
    omega
  strays := h.strays

theorem Sound.release (h : Sound p) (hlive : r ∈ p.live) : Sound (p.release r) where
  total := fun r' => by
    have htotal := h.total r'
    have hpos := List.count_pos_iff.mpr hlive
    simp only [Pool.release, List.count_cons, List.count_erase, beq_iff_eq]
    split_ifs with hr
    · subst hr
      omega
    · omega
  strays := (if_pos hlive).trans h.strays

theorem count_cons_add (r : ρ) (rs : List ρ) (r' : ρ) :
    (r :: rs).count r' = [r].count r' + rs.count r' :=
  @List.count_append ρ _ r' [r] rs

theorem count_acquire (p : Pool ρ) (r r' : ρ) :
    (p.acquire r).live.count r' = [r].count r' + p.live.count r' :=
  count_cons_add r p.live r'

theorem count_release (p : Pool ρ) (r r' : ρ) :
    (p.release r).live.count r' = p.live.count r' - [r].count r' := by
  simp only [Pool.release, List.count_erase, List.count_singleton]

theorem count_releaseAll (p : Pool ρ) (rs : List ρ) (r : ρ) :
    (p.releaseAll rs).live.count r = p.live.count r - rs.count r := by
  induction rs generalizing p with
  | nil => rfl
  | cons r' rs ih =>
    rw [count_cons_add, ← Nat.sub_sub, ← count_release]
    exact ih (p.release r')

/-- What is live, each at least as often, can be released. -/
theorem Sound.releaseAll (h : Sound p) (hlive : ∀ r, rs.count r ≤ p.live.count r) :
    Sound (p.releaseAll rs) := by
  induction rs generalizing p with
  | nil => exact h
  | cons r rs ih =>
    have hpos : 0 < (r :: rs).count r := List.count_pos_iff.mpr List.mem_cons_self
    have hmem : r ∈ p.live := List.count_pos_iff.mp (Nat.lt_of_lt_of_le hpos (hlive r))
    refine ih (h.release hmem) fun r' => ?_
    have hall := hlive r'
    rw [count_cons_add] at hall
    rw [count_release]
    omega

end

end Pool

/-! ## Holders -/

/-- What the holders own together. -/
def ownedBy (own : α → List ρ) (l : List α) (r : ρ) : Nat := (l.flatMap own).count r

section
variable {own : α → List ρ} {l : List α} {i j : Nat} {a b : α}

@[simp] theorem ownedBy_append (l' : List α) (r : ρ) :
    ownedBy own (l ++ l') r = ownedBy own l r + ownedBy own l' r := by
  rw [ownedBy, List.flatMap_append, List.count_append, ownedBy, ownedBy]

@[simp] theorem ownedBy_cons (r : ρ) :
    ownedBy own (a :: l) r = (own a).count r + ownedBy own l r := by
  rw [ownedBy, List.flatMap_cons, List.count_append, ownedBy]

@[simp] theorem ownedBy_nil (r : ρ) : ownedBy own [] r = 0 := rfl

theorem ownedBy_set (b : α) (h : l[i]? = some a) (r : ρ) :
    ownedBy own (l.set i b) r + (own a).count r = ownedBy own l r + (own b).count r := by
  obtain ⟨hi, rfl⟩ := List.getElem?_eq_some_iff.mp h
  have hold : ownedBy own l r = ownedBy own (l.take i ++ l[i] :: l.drop (i + 1)) r := by
    rw [← List.drop_eq_getElem_cons hi, List.take_append_drop]
  rw [hold, List.set_eq_take_append_cons_drop, if_pos hi]
  simp only [ownedBy_append, ownedBy_cons]
  omega

/-- Of two holders, the second may hand over to the first. -/
theorem ownedBy_set_set (a' b' : α) (hne : i ≠ j) (ha : l[i]? = some a) (hb : l[j]? = some b)
    (r : ρ) :
    ownedBy own ((l.set i a').set j b') r + (own a).count r + (own b).count r =
      ownedBy own l r + (own a').count r + (own b').count r := by
  have hfirst := @ownedBy_set ρ α _ own _ _ _ a' ha r
  have hb' : (l.set i a')[j]? = some b := (List.getElem?_set_ne hne).trans hb
  have hsecond := @ownedBy_set ρ α _ own _ _ _ b' hb' r
  omega

/-- A holder owns nothing that the holders together do not own. -/
theorem count_le_ownedBy (h : l[i]? = some a) (r : ρ) : (own a).count r ≤ ownedBy own l r := by
  obtain ⟨hi, rfl⟩ := List.getElem?_eq_some_iff.mp h
  have hold : ownedBy own l r = ownedBy own (l.take i ++ l[i] :: l.drop (i + 1)) r := by
    rw [← List.drop_eq_getElem_cons hi, List.take_append_drop]
  rw [hold, ownedBy_append, ownedBy_cons]
  omega

theorem countP_set_add (q : α → Bool) (b : α) (h : l[i]? = some a) :
    (l.set i b).countP q + (if q a then 1 else 0) = l.countP q + (if q b then 1 else 0) := by
  obtain ⟨hi, ha⟩ := List.getElem?_eq_some_iff.mp h
  have hle : (if q a then 1 else 0) ≤ l.countP q := by
    split_ifs with hq
    · exact List.countP_pos_iff.mpr ⟨a, ha ▸ List.getElem_mem hi, hq⟩
    · exact Nat.zero_le _
  rw [List.countP_set hi, ha]
  omega

end

end Base
