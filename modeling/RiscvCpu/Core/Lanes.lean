import RiscvCpu.Common
import RiscvCpu.Memory

/-!
# Byte lanes

Memory transfers words of 64 bits. `rd` picks, from a word read, the bytes a load
addresses, and extends them; `wd` puts the bytes of a store into their place in
the word, and tells by a strobe of 8 bits which bytes are to be written.

An `msize` above `3` is never requested. There, the source leaves the output of `rd`
undefined; it is `0` here.

The two tables, of 15 lanes each, have the same first lane for an access (`Msize.lane`):
`rd` returns the slice from there on, extended (`rd_eq`), and `wd` shifts the bytes to
there (`byte_wd`), and marks these lanes and no others (`getLsbD_strobe`).
-/

namespace RiscvCpu

open Bits

/-- The bytes of a word `r` that a load of `2 ^ msize` bytes at `addr` reads. -/
def rd (r : BitVec 64) (addr msize : BitVec 3) (memUnsigned : Bool) : BitVec 64 :=
  let signBit (k : ℕ) : Bool := if memUnsigned then false else r.getLsbD k
  match msize with
  | 0b000#3 => -- LB, LBU
    match addr with
    | 0b000#3 => rep 56 (signBit 7) ++ r.extractLsb 7 0
    | 0b001#3 => rep 56 (signBit 15) ++ r.extractLsb 15 8
    | 0b010#3 => rep 56 (signBit 23) ++ r.extractLsb 23 16
    | 0b011#3 => rep 56 (signBit 31) ++ r.extractLsb 31 24
    | 0b100#3 => rep 56 (signBit 39) ++ r.extractLsb 39 32
    | 0b101#3 => rep 56 (signBit 47) ++ r.extractLsb 47 40
    | 0b110#3 => rep 56 (signBit 55) ++ r.extractLsb 55 48
    | _ => rep 56 (signBit 63) ++ r.extractLsb 63 56
  | 0b001#3 =>
    match addr.extractLsb 2 1 with
    | 0b00#2 => rep 48 (signBit 15) ++ r.extractLsb 15 0
    | 0b01#2 => rep 48 (signBit 31) ++ r.extractLsb 31 16
    | 0b10#2 => rep 48 (signBit 47) ++ r.extractLsb 47 32
    | _ => rep 48 (signBit 63) ++ r.extractLsb 63 48
  | 0b010#3 =>
    match addr.getLsbD 2 with
    | false => rep 32 (signBit 31) ++ r.extractLsb 31 0
    | true => rep 32 (signBit 63) ++ r.extractLsb 63 32
  | 0b011#3 => r
  | _ => 0#64

/-- The word and the strobe of a store of `2 ^ msize` bytes of `w` at `addr`. -/
def wd (wmem : Bool) (addr : BitVec 3) (w : BitVec 64) (msize : BitVec 3) : BitVec 64 × BitVec 8 :=
  if wmem then
    match msize with
    | 0b000#3 =>
      match addr with
      | 0b000#3 => (0#56 ++ w.extractLsb 7 0, 0x01#8)
      | 0b001#3 => (0#48 ++ (w.extractLsb 7 0 ++ 0#8), 0x02#8)
      | 0b010#3 => (0#40 ++ (w.extractLsb 7 0 ++ 0#16), 0x04#8)
      | 0b011#3 => (0#32 ++ (w.extractLsb 7 0 ++ 0#24), 0x08#8)
      | 0b100#3 => (0#24 ++ (w.extractLsb 7 0 ++ 0#32), 0x10#8)
      | 0b101#3 => (0#16 ++ (w.extractLsb 7 0 ++ 0#40), 0x20#8)
      | 0b110#3 => (0#8 ++ (w.extractLsb 7 0 ++ 0#48), 0x40#8)
      | _ => (w.extractLsb 7 0 ++ 0#56, 0x80#8)
    | 0b001#3 =>
      match addr.extractLsb 2 1 with
      | 0b00#2 => (0#48 ++ w.extractLsb 15 0, 0x03#8)
      | 0b01#2 => (0#32 ++ (w.extractLsb 15 0 ++ 0#16), 0x0c#8)
      | 0b10#2 => (0#16 ++ (w.extractLsb 15 0 ++ 0#32), 0x30#8)
      | _ => (w.extractLsb 15 0 ++ 0#48, 0xc0#8)
    | 0b010#3 =>
      match addr.getLsbD 2 with
      | false => (0#32 ++ w.extractLsb 31 0, 0x0f#8)
      | true => (w.extractLsb 31 0 ++ 0#32, 0xf0#8)
    | 0b011#3 => (w, BitVec.allOnes 8)
    | _ => (0#64, 0x00#8)
  else (0#64, 0x00#8)

/-! ## The lanes of an access -/

/-- The first lane of an access. -/
def Msize.lane (size : Msize) (addr : BitVec 3) : ℕ := addr.toNat / size.bytes * size.bytes

/-- `rd` is one slice, extended. -/
theorem rd_eq (r : BitVec 64) (addr : BitVec 3) (size : Msize) (memUnsigned : Bool) :
    rd r addr size.bits memUnsigned =
      extend 64 (!memUnsigned) (r.extractLsb' (8 * size.lane addr) (8 * size.bytes)) := by
  have ha := cases_three addr
  cases size with
  | MSIZE1 =>
    rcases ha with rfl | rfl | rfl | rfl | rfl | rfl | rfl | rfl <;>
      exact rep_extractLsb 56 r memUnsigned (by decide)
  | MSIZE2 =>
    rcases ha with rfl | rfl | rfl | rfl | rfl | rfl | rfl | rfl <;>
      exact rep_extractLsb 48 r memUnsigned (by decide)
  | MSIZE4 =>
    rcases ha with rfl | rfl | rfl | rfl | rfl | rfl | rfl | rfl <;>
      exact rep_extractLsb 32 r memUnsigned (by decide)
  | MSIZE8 =>
    have hl : Msize.MSIZE8.lane addr = 0 := by
      rw [Msize.lane, Msize.bytes, Nat.div_eq_of_lt addr.isLt, zero_mul]
    rw [hl]
    exact (BitVec.extractLsb'_eq_self.symm.trans (extend_self _ _).symm)

/-- `wd` marks the lanes of the access. -/
theorem getLsbD_strobe (addr : BitVec 3) (w : BitVec 64) (size : Msize) {k : ℕ} (hk : k < 8) :
    (wd true addr w size.bits).2.getLsbD k =
      decide (size.lane addr ≤ k ∧ k < size.lane addr + size.bytes) := by
  have hs : (wd true addr w size.bits).2 =
      BitVec.ofNat 8 (2 ^ size.bytes - 1) <<< size.lane addr := by
    rcases cases_three addr with rfl | rfl | rfl | rfl | rfl | rfl | rfl | rfl <;>
      cases size <;> rfl
  rw [hs]
  clear hs
  cases size <;> interval_cases k <;> revert addr <;> decide

/-- `wd` shifts the low bytes to the lanes of the access. -/
theorem toNat_wd (addr : BitVec 3) (w : BitVec 64) (size : Msize) :
    (wd true addr w size.bits).1.toNat =
      w.toNat % 2 ^ (8 * size.bytes) * 2 ^ (8 * size.lane addr) := by
  have hw := w.isLt
  rcases cases_three addr with rfl | rfl | rfl | rfl | rfl | rfl | rfl | rfl <;> cases size <;>
    simp only [wd, Msize.bits, if_true, Msize.bytes, Msize.lane, BitVec.reduceExtractLsb,
      BitVec.reduceGetLsb, BitVec.reduceEq, imp_self, toNat_append, toNat_extractLsb,
      BitVec.toNat_ofNat] <;>
    simp only [Nat.reduceMul, Nat.reducePow, Nat.reduceDiv, Nat.reduceMod, Nat.reduceAdd,
      Nat.reduceSub] <;>
    omega

theorem byte_wd (addr : BitVec 3) (w : BitVec 64) (size : Msize) {k : ℕ} (hk : k < size.bytes) :
    Words.byte (wd true addr w size.bits).1 (size.lane addr + k) = Words.byte w k := by
  apply BitVec.eq_of_getLsbD_eq
  intro j hj
  rw [Words.byte, Words.byte, BitVec.getLsbD_extractLsb', BitVec.getLsbD_extractLsb',
    BitVec.getLsbD, toNat_wd, Nat.testBit_mul_two_pow, Nat.testBit_mod_two_pow]
  have h : 8 * (size.lane addr + k) + j - 8 * size.lane addr = 8 * k + j := by omega
  rw [h, decide_eq_true (show 8 * size.lane addr ≤ 8 * (size.lane addr + k) + j by omega),
    decide_eq_true (show 8 * k + j < 8 * size.bytes by omega), Bool.true_and, Bool.true_and]
  rfl

end RiscvCpu
