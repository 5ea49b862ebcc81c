import Mathlib.Logic.Function.Iterate
import RiscvCpu.Arith.Wrap
import RiscvCpu.Common

/-!
# The beats of a transaction

The addresses of a wrapping burst, as the simulation computes them for its own slave of the
cache bus. They are those of `Arith.wrap`, unless the window ends with the last address
(`toNat_addr`). There, its upper boundary is `0`, and all beats but the first one have the
address of its lower boundary (`addr_of_top`).
-/

namespace RiscvCpu

open Arith

/-- `struct AXITransaction`, without `busy` and `is_write`, which are set from outside. -/
structure AXITransaction where
  aligned : Bool
  N : BitVec 64
  addr : BitVec 64
  startAddress : BitVec 64
  numberBytes : BitVec 64
  burstLength : BitVec 64
  alignedAddress : BitVec 64
  lowerWrapBoundry : BitVec 64
  upperWrapBoundry : BitVec 64
  deriving DecidableEq, Repr

namespace AXITransaction

/-- Start a new transaction. -/
def init (AxADDR AxSIZE AxLEN : BitVec 64) : AXITransaction :=
  let numberBytes := (1#32 <<< AxSIZE.toNat).setWidth 64
  let burstLength := AxLEN + 1#64
  let dtsize := numberBytes * burstLength
  let lowerWrapBoundry := AxADDR / dtsize * dtsize
  { startAddress := AxADDR
    numberBytes, burstLength
    alignedAddress := AxADDR / numberBytes * numberBytes
    lowerWrapBoundry
    upperWrapBoundry := lowerWrapBoundry + dtsize
    aligned := false
    N := 1#64
    addr := AxADDR }

variable (t : AXITransaction)

/-- The handshake of a beat. -/
def sync : AXITransaction :=
  let addr := if t.aligned then t.addr + t.numberBytes else t.alignedAddress + t.numberBytes
  { t with
    N := t.N + 1#64
    aligned := true
    addr := if addr ≥ t.upperWrapBoundry then t.lowerWrapBoundry else addr }

def last : Bool := t.N == t.burstLength

/-! ## Addresses -/

/-- A transaction of `n` beats of `b` bytes, from the beat `y` on. -/
structure Of (b n y : ℕ) (t : AXITransaction) : Prop where
  aligned : t.aligned = false → t.alignedAddress = t.addr
  numberBytes : t.numberBytes.toNat = b
  lower : t.lowerWrapBoundry.toNat = b * lower n y
  upper : t.upperWrapBoundry.toNat = b * (Arith.lower n y + n) % 2 ^ 64

variable {t} {b n y k : ℕ}

theorem Of.sync (h : Of b n y t) : Of b n y t.sync :=
  ⟨fun h' => absurd h' Bool.false_ne_true.symm, h.numberBytes, h.lower, h.upper⟩

theorem Of.iterate_sync (h : Of b n y t) (k : ℕ) : Of b n y (AXITransaction.sync^[k] t) := by
  induction k with
  | zero => exact h
  | succ k ih =>
    rw [Function.iterate_succ_apply']
    exact ih.sync

theorem Of.addr_sync (h : Of b n y t) : t.sync.addr =
    if t.addr + t.numberBytes ≥ t.upperWrapBoundry then t.lowerWrapBoundry
    else t.addr + t.numberBytes := by
  rw [AXITransaction.sync]
  cases ha : t.aligned with
  | false =>
    rw [if_neg Bool.false_ne_true, h.aligned ha]
  | true =>
    rw [if_pos rfl]

/-- Below the last address, the beats wrap. -/
theorem Of.toNat_addr (h : Of b n y t) (hb : 0 < b) (hn : 0 < n) (haddr : t.addr.toNat = b * y)
    (htop : b * (Arith.lower n y + n) < 2 ^ 64) (k : ℕ) :
    (AXITransaction.sync^[k] t).addr.toNat = b * wrap n y k := by
  induction k with
  | zero => rw [Function.iterate_zero_apply, haddr, wrap_zero]
  | succ k ih =>
    have hk := h.iterate_sync k
    have hlt : wrap n y k + 1 ≤ Arith.lower n y + n := wrap_lt hn
    have hadd : ((AXITransaction.sync^[k] t).addr +
        (AXITransaction.sync^[k] t).numberBytes).toNat = b * (wrap n y k + 1) := by
      rw [BitVec.toNat_add, ih, hk.numberBytes, ← mul_add_one]
      exact Nat.mod_eq_of_lt ((Nat.mul_le_mul_left b hlt).trans_lt htop)
    -- The end of the window is reached, and never passed.
    have hge : (AXITransaction.sync^[k] t).addr + (AXITransaction.sync^[k] t).numberBytes ≥
        (AXITransaction.sync^[k] t).upperWrapBoundry ↔ wrap n y k + 1 = Arith.lower n y + n := by
      rw [ge_iff_le, BitVec.le_def, hadd, hk.upper, Nat.mod_eq_of_lt htop]
      exact ⟨fun hle => hlt.antisymm (Nat.le_of_mul_le_mul_left hle hb),
        fun heq => Nat.mul_le_mul_left b heq.ge⟩
    rw [Function.iterate_succ_apply', hk.addr_sync, wrap_succ hn]
    by_cases hend : wrap n y k + 1 = Arith.lower n y + n
    · rw [if_pos hend, if_pos (hge.2 hend), hk.lower]
    · rw [if_neg hend, if_neg fun h => hend (hge.1 h), hadd]

/-- At the last address, they do not: they stay at the lower boundary. -/
theorem Of.addr_of_top (h : Of b n y t) (htop : b * (Arith.lower n y + n) = 2 ^ 64) (k : ℕ) :
    (AXITransaction.sync^[k + 1] t).addr.toNat = b * Arith.lower n y := by
  have hk := h.iterate_sync k
  rw [Function.iterate_succ_apply', hk.addr_sync, if_pos, hk.lower]
  rw [ge_iff_le, BitVec.le_def, hk.upper, htop, Nat.mod_self]
  exact Nat.zero_le _

/-! ## Requests -/

section Init

variable {addr : BitVec 64} {size : Msize} {len : Mlen}

variable (addr size len) in
theorem toNat_numberBytes : (init addr (size.bits.setWidth 64)
    (len.bits.setWidth 64)).numberBytes.toNat = size.bytes := by
  cases size <;> rfl

theorem toNat_dtsize : ((1#32 <<< (size.bits.setWidth 64).toNat).setWidth 64 *
    (len.bits.setWidth 64 + 1#64) : BitVec 64).toNat = size.bytes * len.beats := by
  cases size <;> cases len <;> rfl

variable (len) in
/-- For an aligned address, the transaction starts with a whole beat. -/
theorem of_init (ha : addr.toNat % size.bytes = 0) :
    Of size.bytes len.beats (addr.toNat / size.bytes)
      (init addr (size.bits.setWidth 64) (len.bits.setWidth 64)) := by
  have hlt := addr.isLt
  have hlower : (init addr (size.bits.setWidth 64)
      (len.bits.setWidth 64)).lowerWrapBoundry.toNat =
        size.bytes * lower len.beats (addr.toNat / size.bytes) := by
    rw [init, BitVec.toNat_mul, BitVec.toNat_udiv, toNat_dtsize, lower,
      Nat.div_div_eq_div_mul, mul_left_comm size.bytes]
    exact Nat.mod_eq_of_lt ((Nat.div_mul_le_self _ _).trans_lt hlt)
  refine ⟨fun _ => BitVec.eq_of_toNat_eq ?_, toNat_numberBytes _ _ _, hlower, ?_⟩
  · have hn := toNat_numberBytes addr size len
    rw [init] at hn ⊢
    rw [BitVec.toNat_mul, BitVec.toNat_udiv, hn,
      Nat.div_mul_cancel (Nat.dvd_of_mod_eq_zero ha), Nat.mod_eq_of_lt hlt]
  · rw [mul_add, ← hlower, ← toNat_dtsize]
    exact BitVec.toNat_add _ _

end Init

theorem iterate_sync_N (k : ℕ) :
    (sync^[k] t).N = t.N + BitVec.ofNat 64 k ∧ (sync^[k] t).burstLength = t.burstLength := by
  induction k with
  | zero => exact ⟨(BitVec.add_zero _).symm, rfl⟩
  | succ k ih =>
    rw [Function.iterate_succ_apply', BitVec.ofNat_add, ← BitVec.add_assoc, ← ih.1, ← ih.2]
    exact ⟨rfl, rfl⟩

theorem iterate_sync_startAddress (k : ℕ) :
    (sync^[k] t).numberBytes = t.numberBytes ∧ (sync^[k] t).startAddress = t.startAddress := by
  induction k with
  | zero => exact ⟨rfl, rfl⟩
  | succ k ih => rwa [Function.iterate_succ_apply']

/-- The transaction has `len + 1` beats. -/
theorem last_iterate_sync {addr size : BitVec 64} {len : BitVec 8} (hk : k ≤ len.toNat) :
    (sync^[k] (init addr size (len.setWidth 64))).last = decide (k = len.toNat) := by
  have hlt := len.isLt
  obtain ⟨hN, hl⟩ := iterate_sync_N (t := init addr size (len.setWidth 64)) k
  rw [last, hN, hl, Bool.eq_iff_iff, beq_iff_eq, decide_eq_true_iff]
  change 1#64 + BitVec.ofNat 64 k = len.setWidth 64 + 1#64 ↔ _
  rw [BitVec.toNat_eq, BitVec.toNat_add, BitVec.toNat_add, BitVec.toNat_setWidth,
    BitVec.toNat_ofNat, BitVec.toNat_ofNat]
  omega

end AXITransaction

end RiscvCpu
