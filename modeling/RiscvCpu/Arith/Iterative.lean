import Mathlib.Algebra.Order.Ring.Nat
import Mathlib.Data.Nat.ModEq
import Mathlib.Tactic.Ring
import Mathlib.Tactic.Linarith

/-!
# Bit-serial multiplication and division

Two classical algorithms on a register of double width, one bit per step, for
operands of `w` bits, as functions of natural numbers.

* *Restoring division* (`restore`): the register starts as the dividend; every
  step shifts it left, and where the divisor fits into the high half (the
  remainder so far), subtracts it and sets the bit shifted in. After `k` steps
  the register holds the remainder and quotient of the first `k` bits of the
  dividend, and its other bits (`iterate_restore`). The remainder is below `2 ^ k`,
  so the bit that the last shift drops is `0` whatever the divisor is.
* *Shift-and-add multiplication* (`shiftAdd`): the register starts as one factor;
  every step adds the other to the high half where the lowest bit is set, and
  shifts right. After `k` steps the register holds the product by the first `k`
  bits, and the other bits (`iterate_shiftAdd`).
-/

namespace Arith

variable {w k n d m p : ℕ}

/-! ## Restoring division -/

/-- A step of restoring division by `d`. -/
def restore (w d p : ℕ) : ℕ :=
  if d ≤ p / 2 ^ (w - 1) % 2 ^ w then
    (p / 2 ^ (w - 1) % 2 ^ w - d) * 2 ^ w + (p % 2 ^ (w - 1) * 2 + 1)
  else p % 2 ^ (2 * w - 1) * 2

/-- The quotient of `k` bits: all ones when the divisor is `0`. -/
def quotient (k n d : ℕ) : ℕ := if d = 0 then 2 ^ k - 1 else n / d

/-- The register after `k` steps: the remainder and the quotient of the first
    `k` bits of `n`, around the bits to come. -/
def restored (w n d k : ℕ) : ℕ :=
  n / 2 ^ (w - k) % d * 2 ^ w + (n % 2 ^ (w - k) * 2 ^ k + quotient k (n / 2 ^ (w - k)) d)

theorem quotient_lt (h : n < 2 ^ k) : quotient k n d < 2 ^ k := by
  rw [quotient]
  split
  · have := Nat.two_pow_pos k
    omega
  · exact (Nat.div_le_self n d).trans_lt h

/-- A step on the three parts of the register: the remainder `r`, the next bit
    `b`, and the rest `y`. -/
theorem restore_parts {r b y : ℕ} (hr : r < 2 ^ w) (hb : b ≤ 1) (hy : y < 2 ^ w) :
    restore (w + 1) d (r * 2 ^ (w + 1) + (b * 2 ^ w + y)) =
      if d ≤ 2 * r + b then (2 * r + b - d) * 2 ^ (w + 1) + (2 * y + 1)
      else (2 * r + b) * 2 ^ (w + 1) + 2 * y := by
  have hp : r * 2 ^ (w + 1) + (b * 2 ^ w + y) = (2 * r + b) * 2 ^ w + y := by ring
  have hdiv : (r * 2 ^ (w + 1) + (b * 2 ^ w + y)) / 2 ^ w = 2 * r + b := by
    rw [hp, add_comm, Nat.add_mul_div_right _ _ (Nat.two_pow_pos w), Nat.div_eq_of_lt hy, zero_add]
  have hmod : (r * 2 ^ (w + 1) + (b * 2 ^ w + y)) % 2 ^ w = y := by
    rw [hp, Nat.mul_add_mod', Nat.mod_eq_of_lt hy]
  have hlt : 2 * r + b < 2 ^ (w + 1) := by rw [pow_succ]; omega
  -- The bit dropped by the shift is the top bit of the remainder, which is `0`.
  have htop : (r * 2 ^ (w + 1) + (b * 2 ^ w + y)) % 2 ^ (2 * (w + 1) - 1) =
      (2 * r + b) * 2 ^ w + y := by
    rw [hp]
    apply Nat.mod_eq_of_lt
    calc (2 * r + b) * 2 ^ w + y < (2 * r + b + 1) * 2 ^ w := by linarith
      _ ≤ 2 ^ (w + 1) * 2 ^ w := Nat.mul_le_mul_right _ hlt
      _ = 2 ^ (2 * (w + 1) - 1) := by rw [← pow_add]; congr 1; omega
  rw [restore, Nat.add_sub_cancel, hdiv, hmod, htop, Nat.mod_eq_of_lt hlt]
  split
  · ring
  · ring

/-- The remainder and quotient of a number with one more bit. -/
theorem mod_quotient_succ {b : ℕ} (hb : b ≤ 1) :
    (if d ≤ 2 * (n % d) + b
      then 2 * (n % d) + b - d = (2 * n + b) % d ∧
        2 * quotient k n d + 1 = quotient (k + 1) (2 * n + b) d
      else 2 * (n % d) + b = (2 * n + b) % d ∧
        2 * quotient k n d = quotient (k + 1) (2 * n + b) d) := by
  rcases Nat.eq_zero_or_pos d with rfl | hd
  -- A division by `0` shifts in a one at each step.
  · have := Nat.two_pow_pos k
    simp only [Nat.mod_zero, Nat.zero_le, if_true, quotient, pow_succ]
    omega
  · have hr := Nat.mod_lt n hd
    have hn' := Nat.div_add_mod n d
    have hne : d ≠ 0 := hd.ne'
    simp only [quotient, if_neg hne]
    split
    case isTrue h =>
      have hsum : 2 * n + b = (2 * (n % d) + b - d) + d * (2 * (n / d) + 1) := by
        have hd' : d * (2 * (n / d) + 1) = 2 * (d * (n / d)) + d := by ring
        omega
      have hlt : 2 * (n % d) + b - d < d := by omega
      rw [hsum, Nat.add_mul_mod_self_left, Nat.mod_eq_of_lt hlt, Nat.add_mul_div_left _ _ hd,
        Nat.div_eq_of_lt hlt]
      exact ⟨rfl, (Nat.zero_add _).symm⟩
    case isFalse h =>
      have hsum : 2 * n + b = (2 * (n % d) + b) + d * (2 * (n / d)) := by
        have hd' : d * (2 * (n / d)) = 2 * (d * (n / d)) := mul_left_comm _ _ _
        omega
      have hlt : 2 * (n % d) + b < d := by omega
      rw [hsum, Nat.add_mul_mod_self_left, Nat.mod_eq_of_lt hlt, Nat.add_mul_div_left _ _ hd,
        Nat.div_eq_of_lt hlt]
      exact ⟨rfl, (Nat.zero_add _).symm⟩

theorem restore_restored (hn : n < 2 ^ w) (hk : k < w) :
    restore w d (restored w n d k) = restored w n d (k + 1) := by
  obtain ⟨j, rfl⟩ : ∃ j, w = k + (j + 1) := ⟨w - k - 1, by omega⟩
  have hj : k + (j + 1) - k = j + 1 := by omega
  have hj' : k + (j + 1) - (k + 1) = j := by omega
  rw [restored, restored, hj, hj']
  -- The bits before, the bit, and the bits after.
  set N := n / 2 ^ (j + 1) with hN
  set b := n / 2 ^ j % 2 with hb
  set x := n % 2 ^ j with hx
  have hbits : n % 2 ^ (j + 1) = b * 2 ^ j + x := by
    rw [Nat.mod_pow_succ, mul_comm, add_comm]
  have hN' : n / 2 ^ j = 2 * N + b := by
    rw [hN, hb, pow_succ, ← Nat.div_div_eq_div_mul]
    exact (Nat.div_add_mod _ 2).symm
  have hNk : N < 2 ^ k := by
    rw [hN, Nat.div_lt_iff_lt_mul (Nat.two_pow_pos _), ← pow_add]
    exact hn
  -- The quotient so far has `k` bits, and the bits to come fill the rest of the low half.
  have hq : quotient k N d < 2 ^ k := quotient_lt hNk
  have hy : x * 2 ^ k + quotient k N d < 2 ^ (k + j) := by
    have hxj : x + 1 ≤ 2 ^ j := Nat.mod_lt _ (Nat.two_pow_pos _)
    calc x * 2 ^ k + quotient k N d < (x + 1) * 2 ^ k := by linarith
      _ ≤ 2 ^ j * 2 ^ k := Nat.mul_le_mul_right _ hxj
      _ = 2 ^ (k + j) := by rw [← pow_add, add_comm]
  have hr : N % d < 2 ^ (k + j) :=
    (Nat.mod_le _ _).trans_lt (hNk.trans_le (Nat.pow_le_pow_right two_pos (Nat.le_add_right _ _)))
  have hb1 : b ≤ 1 := by omega
  have hsplit : n % 2 ^ (j + 1) * 2 ^ k + quotient k N d =
      b * 2 ^ (k + j) + (x * 2 ^ k + quotient k N d) := by
    rw [hbits, pow_add]
    ring
  rw [hsplit, hN', ← add_assoc k j 1, restore_parts hr hb1 hy]
  have hmq := mod_quotient_succ (k := k) (n := N) (d := d) hb1
  split
  case isTrue h =>
    rw [if_pos h] at hmq
    rw [hmq.1, ← hmq.2, pow_succ 2 k]
    ring
  case isFalse h =>
    rw [if_neg h] at hmq
    rw [hmq.1, ← hmq.2, pow_succ 2 k]
    ring

/-- The register of restoring division after `k` steps. -/
theorem iterate_restore (hn : n < 2 ^ w) (hk : k ≤ w) :
    (restore w d)^[k] n = restored w n d k := by
  induction k with
  | zero =>
    have hdiv : n / 2 ^ w = 0 := Nat.div_eq_of_lt hn
    simp [restored, quotient, hdiv, Nat.mod_eq_of_lt hn]
  | succ k ih => rw [Function.iterate_succ_apply', ih (by omega), restore_restored hn (by omega)]

/-- After `w` steps, the register holds the remainder and the quotient. -/
theorem iterate_restore_width (hn : n < 2 ^ w) :
    (restore w d)^[w] n = n % d * 2 ^ w + quotient w n d := by
  rw [iterate_restore hn le_rfl, restored, Nat.sub_self, pow_zero, Nat.div_one, Nat.mod_one,
    zero_mul, zero_add]

/-! ## Shift-and-add multiplication -/

/-- A step of multiplication by `m`. -/
def shiftAdd (w m p : ℕ) : ℕ :=
  if p % 2 = 1 then (p / 2 ^ w + m) * 2 ^ (w - 1) + p % 2 ^ w / 2 else p / 2

/-- The register after `k` steps: the product by the first `k` bits, and the
    bits to come. -/
def shiftAdded (w n m k : ℕ) : ℕ := m * (n % 2 ^ k) * 2 ^ (w - k) + n / 2 ^ k

theorem shiftAdd_eq : shiftAdd (w + 1) m p = (p + p % 2 * m * 2 ^ (w + 1)) / 2 := by
  rw [shiftAdd, Nat.add_sub_cancel]
  split
  case isTrue h =>
    -- Adding to the high half before the shift is adding a multiple of `2 ^ (w + 1)`.
    have hp := Nat.div_add_mod p (2 ^ (w + 1))
    have : p + p % 2 * m * 2 ^ (w + 1) =
        p % 2 ^ (w + 1) + 2 * ((p / 2 ^ (w + 1) + m) * 2 ^ w) := by
      conv_lhs => rw [h, one_mul, ← hp]
      ring
    rw [this, Nat.add_mul_div_left _ _ two_pos, add_comm]
  case isFalse h =>
    rw [Nat.mod_two_ne_one.1 h, zero_mul, zero_mul, add_zero]

theorem shiftAdd_shiftAdded (hk : k < w) :
    shiftAdd w m (shiftAdded w n m k) = shiftAdded w n m (k + 1) := by
  obtain ⟨j, rfl⟩ : ∃ j, w = k + j + 1 := ⟨w - k - 1, by omega⟩
  have hj : k + j + 1 - k = j + 1 := by omega
  have hj' : k + j + 1 - (k + 1) = j := by omega
  rw [shiftAdd_eq, shiftAdded, shiftAdded, hj, hj']
  have hbit : (m * (n % 2 ^ k) * 2 ^ (j + 1) + n / 2 ^ k) % 2 = n / 2 ^ k % 2 := by
    rw [pow_succ, ← mul_assoc, Nat.mul_add_mod']
  have hsum : m * (n % 2 ^ k) * 2 ^ (j + 1) + n / 2 ^ k + n / 2 ^ k % 2 * m * 2 ^ (k + j + 1) =
      n / 2 ^ k + 2 * (m * (n % 2 ^ (k + 1)) * 2 ^ j) := by
    rw [Nat.mod_pow_succ]
    ring
  rw [hbit, hsum, Nat.add_mul_div_left _ _ two_pos, Nat.div_div_eq_div_mul, ← pow_succ, add_comm]

/-- The register of shift-and-add multiplication after `k` steps. -/
theorem iterate_shiftAdd (hk : k ≤ w) : (shiftAdd w m)^[k] n = shiftAdded w n m k := by
  induction k with
  | zero => simp [shiftAdded, Nat.mod_one]
  | succ k ih => rw [Function.iterate_succ_apply', ih (by omega), shiftAdd_shiftAdded (by omega)]

/-- The high half and the carry never overflow the register. -/
theorem shiftAdded_lt (hm : m < 2 ^ w) (hn : n < 2 ^ w) (hk : k ≤ w) :
    shiftAdded w n m k < 2 ^ (2 * w) := by
  obtain ⟨j, rfl⟩ : ∃ j, w = k + j := ⟨w - k, by omega⟩
  rw [shiftAdded, Nat.add_sub_cancel_left]
  have hx : n % 2 ^ k + 1 ≤ 2 ^ k := Nat.mod_lt _ (Nat.two_pow_pos k)
  have hy : n / 2 ^ k < 2 ^ j := by
    rw [Nat.div_lt_iff_lt_mul (Nat.two_pow_pos k), ← pow_add, add_comm]
    exact hn
  calc m * (n % 2 ^ k) * 2 ^ j + n / 2 ^ k < (m * (n % 2 ^ k) + 1) * 2 ^ j := by linarith
    _ ≤ 2 ^ (k + j) * 2 ^ k * 2 ^ j := by
        refine Nat.mul_le_mul_right _ ?_
        calc m * (n % 2 ^ k) + 1 ≤ 2 ^ (k + j) * (n % 2 ^ k) + 2 ^ (k + j) :=
              Nat.add_le_add (Nat.mul_le_mul_right _ hm.le) Nat.one_le_two_pow
          _ = 2 ^ (k + j) * (n % 2 ^ k + 1) := by ring
          _ ≤ 2 ^ (k + j) * 2 ^ k := Nat.mul_le_mul_left _ hx
    _ = 2 ^ (2 * (k + j)) := by rw [← pow_add, ← pow_add]; congr 1; omega

/-- After `w` steps, the register holds the product. -/
theorem iterate_shiftAdd_width (hn : n < 2 ^ w) : (shiftAdd w m)^[w] n = m * n := by
  rw [iterate_shiftAdd le_rfl, shiftAdded, Nat.sub_self, pow_zero, mul_one, Nat.mod_eq_of_lt hn,
    Nat.div_eq_of_lt hn, add_zero]

end Arith
