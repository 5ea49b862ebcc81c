import RiscvCpu.Arith.Bits

/-!
# Multiplication and division of RV64M

The results of the `M` extension, on vectors of any width: signed division
rounds towards zero, a division by `0` gives all ones and leaves the dividend,
and the one quotient out of range (`div_intMin`) wraps around. The `W` forms
work on the low 32 bits of their operands and sign-extend the result (`word`).
-/

namespace Rv64

variable {w : ℕ}

/-- `DIV`. -/
def div (a b : BitVec w) : BitVec w :=
  if b = 0#w then BitVec.allOnes w else BitVec.ofInt w (a.toInt.tdiv b.toInt)

/-- `REM`. -/
def rem (a b : BitVec w) : BitVec w :=
  if b = 0#w then a else BitVec.ofInt w (a.toInt.tmod b.toInt)

/-- `DIVU`. -/
def divu (a b : BitVec w) : BitVec w :=
  if b = 0#w then BitVec.allOnes w else BitVec.ofNat w (a.toNat / b.toNat)

/-- `REMU`. -/
def remu (a b : BitVec w) : BitVec w :=
  if b = 0#w then a else BitVec.ofNat w (a.toNat % b.toNat)

/-- The `W` form of an operation. -/
def word (f : BitVec 32 → BitVec 32 → BitVec 32) (a b : BitVec 64) : BitVec 64 :=
  (f (a.setWidth 32) (b.setWidth 32)).signExtend 64

/-- `MUL` or `MULW`. -/
def product (w : Bool) (a b : BitVec 64) : BitVec 64 :=
  if w then word (· * ·) a b else a * b

/-- `DIV`, `DIVU`, `DIVW` or `DIVUW`: signed if `s`, and on words if `w`. -/
def quot (s w : Bool) (a b : BitVec 64) : BitVec 64 :=
  match w, s with
  | false, false => divu a b
  | false, true => div a b
  | true, false => word divu a b
  | true, true => word div a b

/-- `REM`, `REMU`, `REMW` or `REMUW`. -/
def remainder (s w : Bool) (a b : BitVec 64) : BitVec 64 :=
  match w, s with
  | false, false => remu a b
  | false, true => rem a b
  | true, false => word remu a b
  | true, true => word rem a b

/-! ## On magnitudes -/

theorem toInt_eq_natAbs (a : BitVec w) :
    a.toInt = if a.msb then -(a.toInt.natAbs : ℤ) else (a.toInt.natAbs : ℤ) := by
  cases ha : a.msb with
  | true =>
    have := BitVec.toInt_neg_iff.2 (BitVec.msb_eq_true_iff_two_mul_ge.1 ha)
    rw [if_pos rfl]
    omega
  | false =>
    have := BitVec.toInt_eq_toNat_of_msb ha
    rw [if_neg Bool.false_ne_true]
    omega

/-- Signed division divides the magnitudes, and negates if the signs differ. -/
theorem div_eq_natAbs {a b : BitVec w} (hb : b ≠ 0#w) :
    div a b = if a.msb = b.msb then BitVec.ofNat w (a.toInt.natAbs / b.toInt.natAbs)
      else -BitVec.ofNat w (a.toInt.natAbs / b.toInt.natAbs) := by
  have hab : ∀ n d : ℕ, (n : ℤ).tdiv d = (n / d : ℕ) := fun _ _ => rfl
  have ha := toInt_eq_natAbs a
  have hb' := toInt_eq_natAbs b
  rw [div, if_neg hb]
  generalize a.toInt.natAbs = n, b.toInt.natAbs = d at ha hb' ⊢
  rw [ha, hb']
  cases a.msb <;> cases b.msb <;>
    simp only [if_true, if_false, Bool.false_eq_true, reduceCtorEq, Int.neg_tdiv, Int.tdiv_neg,
      neg_neg, hab, BitVec.ofInt_neg, BitVec.ofInt_natCast]

/-- The signed remainder is that of the magnitudes, with the sign of the
    dividend (also of a division by `0`). -/
theorem rem_eq_natAbs (a b : BitVec w) :
    rem a b = if a.msb then -BitVec.ofNat w (a.toInt.natAbs % b.toInt.natAbs)
      else BitVec.ofNat w (a.toInt.natAbs % b.toInt.natAbs) := by
  have hab : ∀ n d : ℕ, (n : ℤ).tmod d = (n % d : ℕ) := fun _ _ => rfl
  have ha := toInt_eq_natAbs a
  have hb' := toInt_eq_natAbs b
  -- The remainder by the integer `0` is the dividend, as it is for `REM`.
  have hrem : rem a b = BitVec.ofInt w (a.toInt.tmod b.toInt) := by
    rw [rem]
    split
    case isTrue hb =>
      rw [hb, BitVec.toInt_zero, Int.tmod_zero, BitVec.ofInt_toInt]
    case isFalse => rfl
  rw [hrem]
  generalize a.toInt.natAbs = n, b.toInt.natAbs = d at ha hb' ⊢
  rw [ha, hb']
  cases a.msb <;> cases b.msb <;>
    simp only [if_true, if_false, Bool.false_eq_true, Int.neg_tmod, Int.tmod_neg, hab,
      BitVec.ofInt_neg, BitVec.ofInt_natCast]

/-! ## Overflow -/

theorem allOnes_ne_zero (hw : 0 < w) : BitVec.allOnes w ≠ 0#w := by
  intro h
  have h' := congrArg BitVec.toNat h
  have := Nat.one_lt_two_pow hw.ne'
  rw [BitVec.toNat_allOnes, BitVec.toNat_ofNat, Nat.zero_mod] at h'
  omega

/-- The most negative number divided by `-1` is itself. -/
theorem div_intMin (hw : 0 < w) : div (BitVec.intMin w) (BitVec.allOnes w) = BitVec.intMin w := by
  rw [div, if_neg (allOnes_ne_zero hw), BitVec.toInt_allOnes, if_pos hw, Int.tdiv_neg, Int.tdiv_one,
    BitVec.ofInt_neg, BitVec.ofInt_toInt, BitVec.neg_intMin]

end Rv64
