import PcieDriver.Base.Bytes

/-!
# Records in the memory of a process

A `Codec` is the layout of a record without gaps. The memory of a process has holes, and a copy that
comes to one of them stops there.
-/

namespace Base

variable {α β γ : Type}

/-! ## Layouts -/

structure Codec (α : Type) where
  size : Nat
  enc : α → List Byte
  dec : List Byte → α
  enc_length : ∀ a, (enc a).length = size
  dec_enc : ∀ a, dec (enc a) = a

namespace Codec

/-- A word of `w` bytes, the lowest first. -/
def word (n w : Nat) (h : 2 ^ n = 256 ^ w) : Codec (BitVec n) where
  size := w
  enc x := bytesOf w x.toNat
  dec bs := BitVec.ofNat n (wordOf bs)
  enc_length x := bytesOf_length w x.toNat
  dec_enc x := ofNat_wordOf_bytesOf w x h

def u8 : Codec (BitVec 8) := word 8 1 (by decide)
def u16 : Codec (BitVec 16) := word 16 2 (by decide)
def u32 : Codec (BitVec 32) := word 32 4 (by decide)

/-- An array of `n` bytes. -/
def bytes (n : Nat) : Codec (Vector Byte n) where
  size := n
  enc v := v.toList
  dec bs := Vector.ofFn fun i => bs.getD i 0
  enc_length v := by simp
  dec_enc v := by
    ext i
    simp

/-- One record behind the other. -/
def pair (c : Codec α) (d : Codec β) : Codec (α × β) where
  size := c.size + d.size
  enc x := c.enc x.1 ++ d.enc x.2
  dec bs := (c.dec (bs.take c.size), d.dec (bs.drop c.size))
  enc_length x := by rw [List.length_append, c.enc_length, d.enc_length]
  dec_enc x := by
    rw [List.take_left' (c.enc_length x.1), List.drop_left' (c.enc_length x.1), c.dec_enc, d.dec_enc]

/-- The same bytes under other names. -/
def named (c : Codec α) (fields : β → α) (make : α → β) (h : ∀ b, make (fields b) = b) : Codec β where
  size := c.size
  enc b := c.enc (fields b)
  dec bs := make (c.dec bs)
  enc_length b := c.enc_length (fields b)
  dec_enc b := by rw [c.dec_enc, h]

end Codec

/-! ## The memory of a process -/

/-- Where nothing is mapped there is no byte. -/
abbrev UserMem := Nat → Option Byte

/-- The `n` bytes at `a`, if they are all there. -/
def copyFromUser (u : UserMem) (a : Nat) : Nat → Option (List Byte)
  | 0 => some []
  | n + 1 => do
    let b ← u a
    let bs ← copyFromUser u (a + 1) n
    some (b :: bs)

/-- Writes up to the first byte that is not there, and tells whether that was all. -/
def copyToUser (u : UserMem) (a : Nat) : List Byte → UserMem × Bool
  | [] => (u, true)
  | b :: bs =>
    match u a with
    | none => (u, false)
    | some _ => copyToUser (Function.update u a (some b)) (a + 1) bs

/-- The `n` bytes at `a` are there. -/
def Mapped (u : UserMem) (a n : Nat) : Prop := ∀ i, a ≤ i → i < a + n → (u i).isSome = true

section
variable {u : UserMem} {a n : Nat} {bs : List Byte}

theorem Mapped.head (h : Mapped u a (n + 1)) : ∃ b, u a = some b :=
  Option.isSome_iff_exists.mp (h a (by omega) (by omega))

theorem Mapped.tail (h : Mapped u a (n + 1)) : Mapped u (a + 1) n :=
  fun i hi hi' => h i (by omega) (by omega)

theorem Mapped.mono {m : Nat} (h : Mapped u a n) (hmn : m ≤ n) : Mapped u a m :=
  fun i hi hi' => h i hi (by omega)

theorem Mapped.update (h : Mapped u a n) (i : Nat) (b : Byte) :
    Mapped (Function.update u i (some b)) a n := by
  intro j hj hj'
  by_cases hji : j = i
  · rw [hji, Function.update_self]
    rfl
  · rw [Function.update_of_ne hji]
    exact h j hj hj'

theorem copyFromUser_mapped (h : Mapped u a n) : (copyFromUser u a n).isSome = true := by
  induction n generalizing a with
  | zero => rfl
  | succ n ih =>
    obtain ⟨b, hb⟩ := h.head
    obtain ⟨bs, hbs⟩ := Option.isSome_iff_exists.mp (ih h.tail)
    simp [copyFromUser, hb, hbs]

theorem copyToUser_outside {i : Nat} (h : i < a ∨ a + bs.length ≤ i) :
    (copyToUser u a bs).1 i = u i := by
  induction bs generalizing u a with
  | nil => rfl
  | cons b bs ih =>
    rw [List.length_cons] at h
    simp only [copyToUser]
    split
    · rfl
    · rw [ih (by omega), Function.update_of_ne (by omega)]

theorem copyFromUser_congr {u' : UserMem} (h : ∀ i, a ≤ i → i < a + n → u' i = u i) :
    copyFromUser u' a n = copyFromUser u a n := by
  induction n generalizing a with
  | zero => rfl
  | succ n ih =>
    rw [copyFromUser, copyFromUser, h a (by omega) (by omega),
      ih fun i hi hi' => h i (by omega) (by omega)]

/-- A copy is whole where there is something to overwrite. -/
theorem copyToUser_whole : (copyToUser u a bs).2 = (copyFromUser u a bs.length).isSome := by
  induction bs generalizing u a with
  | nil => rfl
  | cons b bs ih =>
    cases hb : u a with
    | none => simp [copyToUser, copyFromUser, hb]
    | some b' =>
      have hrest : copyFromUser (Function.update u a (some b)) (a + 1) bs.length =
          copyFromUser u (a + 1) bs.length :=
        copyFromUser_congr fun i hi _ => Function.update_of_ne (by omega) _ _
      simp only [copyToUser, hb, List.length_cons, copyFromUser, ih, hrest]
      cases copyFromUser u (a + 1) bs.length <;> rfl

theorem copyFrom_copyTo (h : Mapped u a bs.length) :
    copyFromUser (copyToUser u a bs).1 a bs.length = some bs := by
  induction bs generalizing u a with
  | nil => rfl
  | cons b bs ih =>
    obtain ⟨b', hb'⟩ := Mapped.head h
    simp only [copyToUser, hb', List.length_cons, copyFromUser]
    rw [copyToUser_outside (.inl (by omega)), Function.update_self, ih (h.tail.update a b)]
    rfl

theorem Mapped.copyToUser {a' : Nat} (h : Mapped u a' n) (a : Nat) (bs : List Byte) :
    Mapped (copyToUser u a bs).1 a' n := by
  induction bs generalizing u a with
  | nil => exact h
  | cons b bs ih =>
    simp only [Base.copyToUser]
    split
    · exact h
    · exact ih (h.update a b) (a + 1)

end

end Base
