import Mathlib.Algebra.Order.Ring.Int
import Mathlib.Data.Nat.ModEq

/-!
# Bit vectors as numbers

How the operations of a hardware description on bit vectors (concatenations,
slices, replications) act on the numbers the vectors hold. A concatenation is a
sum, and a slice a quotient and a remainder, so that facts about slices of
concatenations of fixed widths are linear arithmetic.
-/

namespace Bits

variable {m n w : ℕ}

/-- The replication `{n{b}}` of a bit. -/
def rep (n : ℕ) (b : Bool) : BitVec n := if b then BitVec.allOnes n else 0#n

theorem getLsbD_rep (b : Bool) (i : ℕ) : (rep n b).getLsbD i = (decide (i < n) && b) := by
  cases b with
  | true => rw [rep, if_pos rfl, BitVec.getLsbD_allOnes, Bool.and_true]
  | false => rw [rep, if_neg Bool.false_ne_true, BitVec.getLsbD_zero, Bool.and_false]

/-- Replicating the sign bit in front of a vector is sign extension. -/
theorem rep_msb_append (x : BitVec w) : rep n x.msb ++ x = x.signExtend (n + w) := by
  ext i hi
  rw [BitVec.getElem_append, BitVec.getElem_signExtend]
  split
  · rfl
  · cases hx : x.msb <;> simp [rep]

/-- Zeros in front of a vector are zero extension. -/
theorem rep_false_append (x : BitVec w) : rep n false ++ x = x.setWidth (n + w) := by
  ext i hi
  rw [BitVec.getElem_append, BitVec.getElem_setWidth]
  split
  case isTrue h => rw [BitVec.getLsbD_eq_getElem h]
  case isFalse h => simp [rep, BitVec.getLsbD_of_ge _ _ (not_lt.1 h)]

/-- A vector extended to `n` bits, by its sign or by zeros. -/
def extend (n : ℕ) (signed : Bool) (x : BitVec w) : BitVec n :=
  if signed then x.signExtend n else x.setWidth n

theorem extend_self (signed : Bool) (x : BitVec w) : extend w signed x = x := by
  cases signed with
  | false => exact BitVec.setWidth_eq x
  | true => exact BitVec.signExtend_eq x

/-- A slice, with its sign bit or zeros in front of it. -/
theorem rep_extractLsb (n : ℕ) (x : BitVec w) (unsigned : Bool) {hi lo : ℕ} (h : lo ≤ hi) :
    rep n (if unsigned then false else x.getLsbD hi) ++ x.extractLsb hi lo =
      extend _ (!unsigned) (x.extractLsb hi lo) := by
  cases unsigned with
  | false =>
    have hm : (x.extractLsb hi lo).msb = x.getLsbD hi := by
      rw [BitVec.msb_eq_getLsbD_last, BitVec.getLsbD_extractLsb, Nat.add_sub_cancel,
        Nat.add_sub_cancel' h, decide_eq_true (by omega), Bool.true_and]
    rw [if_neg Bool.false_ne_true, ← hm]
    exact rep_msb_append _
  | true => exact rep_false_append _

theorem toNat_append (x : BitVec m) (y : BitVec n) :
    (x ++ y).toNat = x.toNat * 2 ^ n + y.toNat := by
  rw [BitVec.toNat_append, Nat.shiftLeft_eq, mul_comm, Nat.two_pow_add_eq_or_of_lt y.isLt]

theorem toNat_extractLsb (x : BitVec w) (hi lo : ℕ) :
    (x.extractLsb hi lo).toNat = x.toNat / 2 ^ lo % 2 ^ (hi - lo + 1) := by
  rw [BitVec.extractLsb_toNat, Nat.shiftRight_eq_div_pow]

theorem getLsbD_eq (x : BitVec w) (i : ℕ) : x.getLsbD i = decide (x.toNat / 2 ^ i % 2 = 1) := by
  rw [BitVec.getLsbD, Nat.testBit_eq_decide_div_mod_eq]

/-- Clearing the low bits of a vector rounds it down. -/
theorem toNat_and_not (x : BitVec w) {k : ℕ} (hk : k < w) :
    (x &&& ~~~(BitVec.twoPow w k - 1#w)).toNat = x.toNat / 2 ^ k * 2 ^ k := by
  have hpos := Nat.two_pow_pos k
  have hlt := Nat.pow_lt_pow_right (a := 2) (by omega) hk
  have hone : (1#w).toNat = 1 := by
    rw [BitVec.toNat_ofNat]
    exact Nat.mod_eq_of_lt (by omega)
  have hsub : (BitVec.twoPow w k - 1#w).toNat = 2 ^ k - 1 := by
    rw [BitVec.toNat_sub_of_le, BitVec.toNat_twoPow_of_lt hk, hone]
    rw [BitVec.le_def, BitVec.toNat_twoPow_of_lt hk, hone]
    exact hpos
  -- Both sides are the bits from `k` on.
  apply Nat.eq_of_testBit_eq
  intro i
  rw [Nat.testBit_mul_two_pow, Nat.testBit_div_two_pow, BitVec.testBit_toNat,
    BitVec.testBit_toNat, BitVec.getLsbD_and, BitVec.getLsbD_not,
    ← BitVec.testBit_toNat (BitVec.twoPow w k - 1#w), hsub, Nat.testBit_two_pow_sub_one]
  by_cases hki : k ≤ i
  · rw [decide_eq_true hki, decide_eq_false (not_lt.2 hki), Nat.sub_add_cancel hki, Bool.not_false,
      Bool.and_true, Bool.true_and]
    by_cases hi : i < w
    · rw [decide_eq_true hi, Bool.and_true]
    · rw [BitVec.getLsbD_of_ge _ _ (not_lt.1 hi), Bool.false_and]
  · rw [decide_eq_false hki, decide_eq_true (not_le.1 hki), Bool.not_true, Bool.and_false,
      Bool.and_false, Bool.false_and]

theorem cases_three (x : BitVec 3) : x = 0#3 ∨ x = 1#3 ∨ x = 2#3 ∨ x = 3#3 ∨ x = 4#3 ∨ x = 5#3 ∨
    x = 6#3 ∨ x = 7#3 := by
  revert x
  decide

/-! ## Words of 32 bits in vectors of 64 -/

theorem extractLsb_word (x : BitVec 64) : x.extractLsb 31 0 = x.setWidth 32 :=
  (BitVec.setWidth_eq_extractLsb' (by decide)).symm

theorem getLsbD_word (x : BitVec 64) : x.getLsbD 31 = (x.setWidth 32).msb := by
  rw [BitVec.msb_eq_getLsbD_last, BitVec.getLsbD_setWidth]
  rfl

theorem rep_word (x : BitVec 64) :
    rep 32 (x.getLsbD 31) ++ x.extractLsb 31 0 = (x.setWidth 32).signExtend 64 := by
  rw [getLsbD_word, extractLsb_word]
  exact rep_msb_append _

theorem zero_word (x : BitVec 64) : (0#32 ++ x.extractLsb 31 0 : BitVec 64).toNat =
    (x.setWidth 32).toNat := by
  rw [toNat_append, extractLsb_word, BitVec.toNat_ofNat, Nat.zero_mod, zero_mul, zero_add]

/-! ## Two's complement -/

/-- `~x + 1` is the negation. -/
theorem not_add_one (x : BitVec w) : ~~~x + 1#w = -x := (BitVec.neg_eq_not_add x).symm

theorem neg_ofNat (k : ℕ) : -BitVec.ofNat w k = BitVec.ofInt w (-k) := by
  rw [BitVec.ofInt_neg, BitVec.ofInt_natCast]

/-- The negation of a negative number is its absolute value. -/
theorem toNat_neg_of_msb {x : BitVec w} (h : x.msb = true) : (-x).toNat = x.toInt.natAbs := by
  rw [BitVec.toInt_eq_neg_toNat_neg_of_msb_true h, Int.natAbs_neg, Int.natAbs_natCast]

/-- A number that is not negative is its absolute value. -/
theorem toNat_of_msb {x : BitVec w} (h : x.msb = false) : x.toNat = x.toInt.natAbs := by
  rw [BitVec.toInt_eq_toNat_of_msb h, Int.natAbs_natCast]

/-- Sign extension keeps the integers in the range of the vector. -/
theorem signExtend_ofInt {v : ℤ} (hm : 0 < m) (hmn : m ≤ n) (hlo : -2 ^ (m - 1) ≤ v)
    (hhi : v < 2 ^ (m - 1)) : (BitVec.ofInt m v).signExtend n = BitVec.ofInt n v := by
  apply BitVec.eq_of_toInt_eq
  rw [BitVec.toInt_signExtend_of_le hmn, BitVec.toInt_ofInt, BitVec.toInt_ofInt]
  have hpm : (2 : ℤ) ^ m = 2 * 2 ^ (m - 1) := by rw [← pow_succ', Nat.sub_add_cancel hm]
  have hpn : (2 : ℤ) ^ n = 2 * 2 ^ (n - 1) := by
    rw [← pow_succ', Nat.sub_add_cancel (hm.trans_le hmn)]
  have hle : (2 : ℤ) ^ (m - 1) ≤ 2 ^ (n - 1) := pow_le_pow_right₀ one_le_two (by omega)
  -- The integer is in the balanced range of both widths, so neither reduces it.
  rw [Int.bmod_eq_of_le, Int.bmod_eq_of_le] <;> push_cast <;> omega

theorem signExtend_neg_ofNat {k : ℕ} (hm : 0 < m) (hmn : m ≤ n) (hk : k ≤ 2 ^ (m - 1)) :
    (-BitVec.ofNat m k).signExtend n = -BitVec.ofNat n k := by
  have hk' : (k : ℤ) ≤ 2 ^ (m - 1) := by exact_mod_cast hk
  have : (0 : ℤ) < 2 ^ (m - 1) := pow_pos two_pos _
  rw [neg_ofNat, neg_ofNat, signExtend_ofInt hm hmn (by omega) (by omega)]

theorem signExtend_ofNat {k : ℕ} (hm : 0 < m) (hmn : m ≤ n) (hk : k < 2 ^ (m - 1)) :
    (BitVec.ofNat m k).signExtend n = BitVec.ofNat n k := by
  have hk' : (k : ℤ) < 2 ^ (m - 1) := by exact_mod_cast hk
  rw [← BitVec.ofInt_natCast, ← BitVec.ofInt_natCast, signExtend_ofInt hm hmn (by omega) hk']

theorem natAbs_toInt_le (x : BitVec w) : x.toInt.natAbs ≤ 2 ^ (w - 1) := by
  rcases Nat.eq_zero_or_pos w with rfl | hw
  · rw [BitVec.eq_nil x]
    decide
  · have hlo := BitVec.two_mul_toInt_lt (x := x)
    have hhi := BitVec.le_two_mul_toInt (x := x)
    have hp : (2 : ℤ) ^ w = 2 * 2 ^ (w - 1) := by rw [← pow_succ', Nat.sub_add_cancel hw]
    have hp' : ((2 ^ (w - 1) : ℕ) : ℤ) = 2 ^ (w - 1) := by push_cast; rfl
    omega

theorem natAbs_toInt_lt (hw : 0 < w) {x : BitVec w} (h : x.msb = false) :
    x.toInt.natAbs < 2 ^ (w - 1) := by
  have hx := BitVec.msb_eq_false_iff_two_mul_lt.1 h
  have hp : 2 ^ w = 2 * 2 ^ (w - 1) := by rw [← pow_succ', Nat.sub_add_cancel hw]
  rw [← toNat_of_msb h]
  omega

end Bits
