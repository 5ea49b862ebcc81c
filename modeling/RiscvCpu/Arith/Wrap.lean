import Mathlib.Algebra.Order.Ring.Nat
import Mathlib.Data.Nat.ModEq
import Mathlib.Tactic.Ring

/-!
# Wrapping bursts

A burst of `n` beats that starts with the beat `y`, of all beats of the memory. If it wraps, it
stays in its window, the `n` beats from a multiple of `n` on: after the last beat of the
window, there is its first one.
-/

namespace Arith

/-- The first beat of the window. -/
def lower (n y : ℕ) : ℕ := y / n * n

/-- The beat `k` of a wrapping burst. -/
def wrap (n y k : ℕ) : ℕ := lower n y + (y + k) % n

variable {n y k : ℕ}

theorem lower_add_mod : lower n y + y % n = y := Nat.div_add_mod' y n

theorem wrap_zero : wrap n y 0 = y := lower_add_mod

theorem lower_le : lower n y ≤ y := Nat.div_mul_le_self y n

theorem lt_lower_add (hn : 0 < n) : y < lower n y + n := by
  have h := Nat.mod_lt y hn
  have := lower_add_mod (n := n) (y := y)
  omega

theorem wrap_lt (hn : 0 < n) : wrap n y k < lower n y + n :=
  Nat.add_lt_add_left (Nat.mod_lt _ hn) _

/-- The next beat is the first one after the last one of the window. -/
theorem wrap_succ (hn : 0 < n) : wrap n y (k + 1) =
    if wrap n y k + 1 = lower n y + n then lower n y else wrap n y k + 1 := by
  have hlt := Nat.mod_lt (y + k) hn
  have hs : (y + (k + 1)) % n = ((y + k) % n + 1) % n := by
    rw [Nat.mod_add_mod, add_assoc]
  rw [wrap, wrap, hs]
  by_cases h : (y + k) % n + 1 = n
  · rw [if_pos (by omega), h, Nat.mod_self, add_zero]
  · rw [if_neg (by omega), Nat.mod_eq_of_lt (by omega), add_assoc]

/-- After the end of the window, there is its start. -/
theorem wrap_end (hn : 0 < n) (hy : y % n ≠ 0) :
    n - y % n < n ∧ y + (n - y % n) = lower n y + n ∧ wrap n y (n - y % n) = lower n y := by
  have hlt := Nat.mod_lt y hn
  have hadd := lower_add_mod (n := n) (y := y)
  have hend : y + (n - y % n) = lower n y + n := by omega
  refine ⟨by omega, hend, ?_⟩
  rw [wrap, hend, Nat.add_mod_right, lower, Nat.mul_mod_left, add_zero]

theorem wrap_of_mod (hy : y % n = 0) (hk : k < n) : wrap n y k = y + k := by
  have hadd := lower_add_mod (n := n) (y := y)
  rw [wrap, Nat.add_mod, hy, zero_add, Nat.mod_mod, Nat.mod_eq_of_lt hk]
  omega

/-- A window of one beat is never left. -/
theorem wrap_one : wrap 1 y k = y := by
  rw [wrap, lower, Nat.div_one, Nat.mod_one, mul_one, add_zero]

/-- In larger ones, no burst stays where it starts. -/
theorem wrap_ne (hn : 1 < n) : wrap n y 1 ≠ y := by
  have h := lt_lower_add (n := n) (y := y) (by omega)
  have hle := lower_le (n := n) (y := y)
  rw [wrap_succ (by omega), wrap_zero]
  split_ifs <;> omega

/-- With beats of `b` bytes, the window ends at a multiple of `b * n` or before it. -/
theorem mul_lower_add_le {b M : ℕ} (hdvd : b * n ∣ M) (hy : b * y < M) :
    b * (lower n y + n) ≤ M := by
  obtain ⟨c, rfl⟩ := hdvd
  have hlt : y < n * c := by
    rw [mul_assoc] at hy
    exact Nat.lt_of_mul_lt_mul_left hy
  have hc : y / n + 1 ≤ c := Nat.div_lt_of_lt_mul hlt
  calc b * (lower n y + n) = b * n * (y / n + 1) := by rw [lower]; ring
    _ ≤ b * n * c := Nat.mul_le_mul_left _ hc

/-! ## In the whole memory

If the window has all `c` beats of the memory, a burst only wraps at its end. -/

section Whole

variable {c : ℕ}

theorem wrap_of_lt (hy : y < c) : wrap c y k = (y + k) % c := by
  rw [wrap, lower, Nat.div_eq_of_lt hy, zero_mul, zero_add]

theorem lower_add_le (hdvd : n ∣ c) (hy : y < c) : lower n y + n ≤ c := by
  have h := mul_lower_add_le (b := 1) ((one_mul n).symm ▸ hdvd) ((one_mul y).symm ▸ hy)
  rwa [one_mul] at h

variable (hn : 0 < n) (hdvd : n ∣ c) (hlt : n < c) (hy : y < c)
include hn hdvd hlt hy

/-- A burst that does not wrap has the beats of one that does, if and only if it starts at
    the start of a window. -/
theorem wrap_eq_wrap_iff : (∀ k < n, wrap c y k = wrap n y k) ↔ y % n = 0 := by
  have hle := lower_add_le hdvd hy
  constructor
  · intro h
    by_contra hmod
    obtain ⟨hk, hend, hwrap⟩ := wrap_end hn hmod
    have heq := h _ hk
    rw [wrap_of_lt hy, hend, hwrap] at heq
    -- The end of the window is not its start, even if it is the end of the memory.
    rcases hle.lt_or_eq with hlt' | heq'
    · rw [Nat.mod_eq_of_lt hlt'] at heq
      omega
    · rw [heq', Nat.mod_self] at heq
      omega
  · intro hmod k hk
    have hadd := lower_add_mod (n := n) (y := y)
    rw [wrap_of_lt hy, wrap_of_mod hmod hk, Nat.mod_eq_of_lt (by omega)]

/-- The second beat, if it does not wrap, is not the start of the window. -/
theorem wrap_one_ne_lower : wrap c y 1 ≠ lower n y := by
  have hle := lower_add_le hdvd hy
  have hlow := lower_le (n := n) (y := y)
  have hend := lt_lower_add (y := y) hn
  rw [wrap_of_lt hy]
  rcases (Nat.succ_le_of_lt hy).lt_or_eq with h | h
  · rw [Nat.mod_eq_of_lt h]
    omega
  · rw [show y + 1 = c from h, Nat.mod_self]
    omega

end Whole

end Arith
