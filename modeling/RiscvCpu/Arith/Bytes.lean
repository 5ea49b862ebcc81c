import Mathlib.Algebra.Order.Ring.Int
import RiscvCpu.Arith.Bits

/-!
# Memories of bytes

A memory that is addressed by bytes. A number of some bytes is stored at an address with
the least significant byte first, and the other bytes after it (addresses wrap around).
-/

namespace Bytes

variable {w : ℕ}

/-- A memory of bytes, by address. -/
abbrev Mem (w : ℕ) := BitVec w → BitVec 8

namespace Mem

variable (m : Mem w) (addr : BitVec w)

/-- The `n` bytes from an address on, as a number. -/
def read (addr : BitVec w) : (n : ℕ) → BitVec (8 * n)
  | 0 => 0#0
  | n + 1 => read (addr + 1#w) n ++ m addr

/-- The memory with the low `n` bytes of `x` from an address on. -/
def write {v : ℕ} (n : ℕ) (x : BitVec v) : Mem w := fun a =>
  if (a - addr).toNat < n then x.extractLsb' (8 * (a - addr).toNat) 8 else m a

variable {m addr} {v n : ℕ} {x : BitVec v} {a : BitVec w}

theorem write_of_lt (h : (a - addr).toNat < n) :
    m.write addr n x a = x.extractLsb' (8 * (a - addr).toNat) 8 := if_pos h

theorem write_of_not_lt (h : ¬(a - addr).toNat < n) : m.write addr n x a = m a := if_neg h

variable (m addr) in
/-- Byte by byte, what is read is what is there. -/
theorem getLsbD_read {n j : ℕ} (hj : j < 8 * n) :
    (m.read addr n).getLsbD j = (m (addr + BitVec.ofNat w (j / 8))).getLsbD (j % 8) := by
  induction n generalizing addr j with
  | zero => omega
  | succ n ih =>
    rw [read, BitVec.getLsbD_append]
    by_cases h : j < 8
    · rw [if_pos h, Nat.div_eq_of_lt h, Nat.mod_eq_of_lt h, BitVec.add_zero]
    · -- The other bytes start at the next address.
      obtain ⟨k, rfl⟩ : ∃ k, j = k + 8 := ⟨j - 8, by omega⟩
      rw [if_neg h, Nat.add_sub_cancel, ih _ (by omega), Nat.add_div_right k (by omega),
        Nat.add_mod_right, BitVec.add_assoc, BitVec.add_comm 1#w, ← BitVec.ofNat_add]

theorem read_congr {m' : Mem w} {n : ℕ}
    (h : ∀ k < n, m (addr + BitVec.ofNat w k) = m' (addr + BitVec.ofNat w k)) :
    m.read addr n = m'.read addr n := by
  apply BitVec.eq_of_getLsbD_eq
  intro j hj
  rw [getLsbD_read m addr hj, getLsbD_read m' addr hj, h _ (by omega)]

end Mem

end Bytes
