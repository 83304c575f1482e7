import PcieDriver.Base.Bytes
import Mathlib.Data.Fintype.Basic

/-!
# The slab that the driver and the device share

One coherent page. The submission entries come first, the completion entries follow, and the
legacy DMA test uses the first 64 bytes as its payload.
-/

open Base

namespace PcieDriver.Edu

/-! ## Constants -/

def ringSize : Nat := 64
def ringMask : BitVec 32 := 63

def sqSize : Nat := ringSize * 16

def eduDmaTestLen : Nat := 64

def eduOpFactorial : BitVec 8 := 0x01
def eduOpDmaTest : BitVec 8 := 0x02

/-! ## Entries -/

structure SqEntry where
  tag : BitVec 16
  opcode : BitVec 8
  flags : BitVec 8
  operand : BitVec 32
  rsvd : BitVec 64
  deriving DecidableEq

structure CqEntry where
  tag : BitVec 16
  status : BitVec 8
  flags : BitVec 8
  result : BitVec 32
  rsvd : BitVec 64
  deriving DecidableEq

/-- The packed layout of both entries. -/
def packed (w : BitVec 16) (b c : BitVec 8) (v : BitVec 32) (u : BitVec 64) : List Byte :=
  bytesOf 2 w.toNat ++ ([b, c] ++ (bytesOf 4 v.toNat ++ bytesOf 8 u.toNat))

@[simp] theorem packed_length (w : BitVec 16) (b c : BitVec 8) (v : BitVec 32) (u : BitVec 64) :
    (packed w b c v u).length = 16 := by
  simp [packed]

def SqEntry.bytes (e : SqEntry) : List Byte := packed e.tag e.opcode e.flags e.operand e.rsvd
def CqEntry.bytes (e : CqEntry) : List Byte := packed e.tag e.status e.flags e.result e.rsvd

def SqEntry.ofBytes (bs : List Byte) : SqEntry where
  tag := BitVec.ofNat 16 (wordOf (bs.take 2))
  opcode := bs.getD 2 0
  flags := bs.getD 3 0
  operand := BitVec.ofNat 32 (wordOf ((bs.drop 4).take 4))
  rsvd := BitVec.ofNat 64 (wordOf ((bs.drop 8).take 8))

def CqEntry.ofBytes (bs : List Byte) : CqEntry where
  tag := BitVec.ofNat 16 (wordOf (bs.take 2))
  status := bs.getD 2 0
  flags := bs.getD 3 0
  result := BitVec.ofNat 32 (wordOf ((bs.drop 4).take 4))
  rsvd := BitVec.ofNat 64 (wordOf ((bs.drop 8).take 8))

section
variable (w : BitVec 16) (b c : BitVec 8) (v : BitVec 32) (u : BitVec 64)

theorem packed_tag : BitVec.ofNat 16 (wordOf ((packed w b c v u).take 2)) = w := by
  rw [packed, List.take_left' (by simp), ofNat_wordOf_bytesOf 2 w (by decide)]

theorem packed_value : BitVec.ofNat 32 (wordOf (((packed w b c v u).drop 4).take 4)) = v := by
  rw [packed, ← List.append_assoc, List.drop_left' (by simp), List.take_left' (by simp),
    ofNat_wordOf_bytesOf 4 v (by decide)]

theorem packed_rsvd : BitVec.ofNat 64 (wordOf (((packed w b c v u).drop 8).take 8)) = u := by
  rw [packed, ← List.append_assoc, ← List.append_assoc, List.drop_left' (by simp),
    List.take_of_length_le (by simp), ofNat_wordOf_bytesOf 8 u (by decide)]

theorem packed_byte_two : (packed w b c v u).getD 2 0 = b := by
  simp [packed, bytesOf]

theorem packed_byte_three : (packed w b c v u).getD 3 0 = c := by
  simp [packed, bytesOf]

end

@[simp] theorem SqEntry.ofBytes_bytes (e : SqEntry) : SqEntry.ofBytes e.bytes = e := by
  simp only [ofBytes, bytes, packed_tag, packed_value, packed_rsvd, packed_byte_two,
    packed_byte_three]

@[simp] theorem CqEntry.ofBytes_bytes (e : CqEntry) : CqEntry.ofBytes e.bytes = e := by
  simp only [ofBytes, bytes, packed_tag, packed_value, packed_rsvd, packed_byte_two,
    packed_byte_three]

@[simp] theorem SqEntry.bytes_length (e : SqEntry) : e.bytes.length = 16 := by simp [bytes]
@[simp] theorem CqEntry.bytes_length (e : CqEntry) : e.bytes.length = 16 := by simp [bytes]

/-! ## The two rings in the slab -/

/-- `e->sq[i]`. -/
def sqAt (slab : Mem) (i : Nat) : SqEntry := .ofBytes (slab.get (16 * i) 16)

/-- `e->cq[i]`. -/
def cqAt (slab : Mem) (i : Nat) : CqEntry := .ofBytes (slab.get (sqSize + 16 * i) 16)

def setSq (slab : Mem) (i : Nat) (e : SqEntry) : Mem := slab.put (16 * i) e.bytes
def setCq (slab : Mem) (i : Nat) (e : CqEntry) : Mem := slab.put (sqSize + 16 * i) e.bytes

section
variable (slab : Mem) {i j : Nat}

@[simp] theorem sqAt_setSq_same (i : Nat) (e : SqEntry) : sqAt (setSq slab i e) i = e := by
  have h := Mem.get_put_same slab (16 * i) e.bytes
  rw [SqEntry.bytes_length] at h
  rw [sqAt, setSq, h, SqEntry.ofBytes_bytes]

theorem sqAt_setSq_ne (h : i ≠ j) (e : SqEntry) : sqAt (setSq slab i e) j = sqAt slab j := by
  rw [sqAt, setSq, Mem.get_put_disjoint, ← sqAt]
  rw [SqEntry.bytes_length]
  omega

@[simp] theorem cqAt_setCq_same (i : Nat) (e : CqEntry) : cqAt (setCq slab i e) i = e := by
  have h := Mem.get_put_same slab (sqSize + 16 * i) e.bytes
  rw [CqEntry.bytes_length] at h
  rw [cqAt, setCq, h, CqEntry.ofBytes_bytes]

theorem cqAt_setCq_ne (h : i ≠ j) (e : CqEntry) : cqAt (setCq slab i e) j = cqAt slab j := by
  rw [cqAt, setCq, Mem.get_put_disjoint, ← cqAt]
  rw [CqEntry.bytes_length]
  omega

theorem cqAt_setSq (hi : i < ringSize) (e : SqEntry) : cqAt (setSq slab i e) j = cqAt slab j := by
  rw [cqAt, setSq, Mem.get_put_disjoint, ← cqAt]
  rw [SqEntry.bytes_length, sqSize]
  omega

theorem sqAt_setCq (hj : j < ringSize) (e : CqEntry) : sqAt (setCq slab i e) j = sqAt slab j := by
  rw [sqAt, setCq, Mem.get_put_disjoint, ← sqAt]
  unfold sqSize
  omega

/-! ## The payload of the legacy DMA test -/

/-- 64 bytes at the start of the slab: the payload of the DMA test, and the first four
submission entries. -/
def setPayload (slab : Mem) (bs : List Byte) : Mem := slab.put 0 (bs.take eduDmaTestLen)

theorem payload_length_le (bs : List Byte) : (bs.take eduDmaTestLen).length ≤ 64 := by
  simp [eduDmaTestLen]

theorem cqAt_setPayload (bs : List Byte) : cqAt (setPayload slab bs) j = cqAt slab j := by
  have := payload_length_le bs
  rw [cqAt, setPayload, Mem.get_put_disjoint, ← cqAt]
  unfold sqSize ringSize
  omega

theorem sqAt_setPayload_high (bs : List Byte) (hj : 4 ≤ j) :
    sqAt (setPayload slab bs) j = sqAt slab j := by
  have := payload_length_le bs
  rw [sqAt, setPayload, Mem.get_put_disjoint, ← sqAt]
  omega

theorem sqAt_setPayload_low (bs : List Byte) (hlen : bs.length = eduDmaTestLen) (hj : j < 4) :
    sqAt (setPayload slab bs) j = .ofBytes ((bs.drop (16 * j)).take 16) := by
  rw [sqAt, setPayload, List.take_of_length_le (by omega)]
  have h := Mem.get_put_within slab 0 bs (k := 16 * j) (n := 16) (by rw [hlen, eduDmaTestLen]; omega)
  rw [Nat.zero_add] at h
  rw [h]

end

end PcieDriver.Edu
