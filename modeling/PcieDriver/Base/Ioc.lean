import Mathlib.Data.BitVec

/-!
# The numbers of ioctls

The format of `asm-generic/ioctl.h`: a direction, the size of the argument, a type and a number in
one word.
-/

namespace Base

def iocNone : BitVec 2 := 0
def iocWrite : BitVec 2 := 1
def iocRead : BitVec 2 := 2

structure Ioc where
  dir : BitVec 2
  type : BitVec 8
  nr : BitVec 8
  size : BitVec 14
  deriving DecidableEq

namespace Ioc

/-- `_IOC`. -/
def word (c : Ioc) : BitVec 32 :=
  c.dir.setWidth 32 <<< 30 ||| c.type.setWidth 32 <<< 8 ||| c.nr.setWidth 32 |||
    c.size.setWidth 32 <<< 16

/-- `_IOC_DIR`, `_IOC_TYPE`, `_IOC_NR` and `_IOC_SIZE`. -/
def ofWord (w : BitVec 32) : Ioc where
  dir := (w >>> 30).setWidth 2
  type := (w >>> 8).setWidth 8
  nr := w.setWidth 8
  size := (w >>> 16).setWidth 14

/-- A bit of the word is a bit of one field. -/
theorem getLsbD_word (c : Ioc) (i : Nat) :
    c.word.getLsbD i =
      if i < 8 then c.nr.getLsbD i else if i < 16 then c.type.getLsbD (i - 8)
      else if i < 30 then c.size.getLsbD (i - 16) else i < 32 && c.dir.getLsbD (i - 30) := by
  have habove {n : Nat} (x : BitVec n) {k : Nat} (hk : n ≤ k) : x.getLsbD k = false :=
    BitVec.getLsbD_of_ge x k hk
  simp only [word, BitVec.getLsbD_or, BitVec.getLsbD_shiftLeft, BitVec.getLsbD_setWidth]
  by_cases h8 : i < 8
  · simp [h8, show i < 16 by omega, show i < 30 by omega, show i < 32 by omega]
  · rw [habove c.nr (by omega)]
    by_cases h16 : i < 16
    · simp [h8, h16, show i < 30 by omega, show i < 32 by omega, show i - 8 < 32 by omega]
    · rw [habove c.type (by omega)]
      by_cases h30 : i < 30
      · simp [h8, h16, h30, show i < 32 by omega, show i - 16 < 32 by omega]
      · rw [habove c.size (by omega)]
        by_cases h32 : i < 32 <;> simp [h8, h16, h30, h32]
        omega

theorem ofWord_word (c : Ioc) : ofWord c.word = c := by
  obtain ⟨dir, type, nr, size⟩ := c
  simp only [ofWord, mk.injEq]
  refine ⟨?_, ?_, ?_, ?_⟩ <;> apply BitVec.eq_of_getLsbD_eq <;> intro i hi <;>
    simp only [BitVec.getLsbD_setWidth, BitVec.getLsbD_ushiftRight, getLsbD_word, hi, decide_true,
      Bool.true_and]
  · rw [if_neg (by omega), if_neg (by omega), if_neg (by omega), Nat.add_sub_cancel_left]
    simp [show 30 + i < 32 by omega]
  · rw [if_neg (by omega), if_pos (by omega), Nat.add_sub_cancel_left]
  · exact if_pos trivial
  · rw [if_neg (by omega), if_neg (by omega), if_pos (by omega), Nat.add_sub_cancel_left]

theorem word_inj {c d : Ioc} (h : c.word = d.word) : c = d := by
  rw [← ofWord_word c, h, ofWord_word]

end Ioc

/-- `_IO`, `_IOR`, `_IOW` and `_IOWR`. -/
def io (type nr : BitVec 8) : Ioc := ⟨iocNone, type, nr, 0⟩
def ior (type nr : BitVec 8) (size : Nat) : Ioc := ⟨iocRead, type, nr, BitVec.ofNat 14 size⟩
def iow (type nr : BitVec 8) (size : Nat) : Ioc := ⟨iocWrite, type, nr, BitVec.ofNat 14 size⟩
def iowr (type nr : BitVec 8) (size : Nat) : Ioc :=
  ⟨iocRead ||| iocWrite, type, nr, BitVec.ofNat 14 size⟩

end Base
