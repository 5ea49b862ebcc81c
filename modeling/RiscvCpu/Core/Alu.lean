import RiscvCpu.Arith.Bits
import RiscvCpu.Rv64.Instr

/-!
# The ALU and the multiplexers

The ALU has sixteen operations, six of them on words. Its flag `SF` is the sign of the
result, but for the two subtractions that compare the operands of a branch: there, it
tells which operand is smaller, signed (`alu_sub_SF`) or not (`alu_subu_SF`), even
if the difference overflows.
-/

namespace RiscvCpu

open Bits

/-- The outputs of the ALU. -/
@[ext]
structure AluOut where
  zero : Bool
  SF : Bool
  result : BitVec 64
  deriving DecidableEq, Repr

namespace Alu

def out (result : BitVec 64) (SF : Bool) : AluOut := { zero := result == 0#64, SF, result }

/-- A result with its sign as the flag. -/
def long (result : BitVec 64) : AluOut := out result (result.getLsbD 63)

/-- The low word of a result, extended by its sign. -/
def word (result : BitVec 64) : AluOut :=
  let SF := result.getLsbD 31
  out (if SF then 0xFFFFFFFF#32 ++ result.extractLsb 31 0 else 0#32 ++ result.extractLsb 31 0) SF

end Alu

open Alu

/-- The ALU. -/
def alu (a b : BitVec 64) (aluctrl : BitVec 4) : AluOut :=
  match aluctrl with
  | 0b0000#4 => long (a + b) -- add
  | 0b0001#4 => -- sub
    let result := a - b
    out result (if a.getLsbD 63 == b.getLsbD 63 then result.getLsbD 63 else a.getLsbD 63)
  | 0b0010#4 => long (a &&& b) -- and
  | 0b0011#4 => long (a ||| b) -- or
  | 0b0100#4 => long (a ^^^ b) -- xor
  | 0b0101#4 => long (a <<< b.extractLsb 5 0) -- sll
  | 0b0110#4 => long (a >>> b.extractLsb 5 0) -- srl
  | 0b0111#4 => long (if a.slt b then 1#64 else 0#64) -- slt
  | 0b1000#4 => long (a.sshiftRight' (b.extractLsb 5 0)) -- sra
  | 0b1001#4 => long (if a.ult b then 1#64 else 0#64) -- sltu
  | 0b1010#4 => -- unsigned sub
    let result := a - b
    out result (if a.getLsbD 63 == b.getLsbD 63 then result.getLsbD 63 else b.getLsbD 63)
  | 0b1011#4 => word (a + b) -- addw
  | 0b1100#4 => word (a - b) -- subw
  | 0b1101#4 => word (a <<< b.extractLsb 4 0) -- sllw
  | 0b1110#4 => word ((0#32 ++ a.extractLsb 31 0 : BitVec 64) >>> b.extractLsb 4 0) -- srlw
  | 0b1111#4 => -- sraw
    let SF := a.getLsbD 31
    let result : BitVec 64 :=
      if SF then 0xFFFFFFFF#32 ++ a.extractLsb 31 0 else 0#32 ++ a.extractLsb 31 0
    out (result.sshiftRight' (b.extractLsb 4 0)) SF
  | _ => long 0#64

def mux2 (a b : BitVec 64) (s : Bool) : BitVec 64 := if s == false then a else b

def mux4 (a b c d : BitVec 64) (s : BitVec 2) : BitVec 64 :=
  match s with
  | 0b00#2 => a
  | 0b01#2 => b
  | 0b10#2 => c
  | _ => d

def mux8 (n1 n2 n3 n4 n5 n6 n7 n8 : BitVec 64) (sel : BitVec 3) : BitVec 64 :=
  match sel with
  | 0b000#3 => n1
  | 0b001#3 => n2
  | 0b010#3 => n3
  | 0b011#3 => n4
  | 0b100#3 => n5
  | 0b101#3 => n6
  | 0b110#3 => n7
  | _ => n8

namespace Nextpc

def pc4 (currentPc : BitVec 64) : BitVec 64 := currentPc + 4#64

def nPc (currentPc branchPc : BitVec 64) (pcCtrl : Bool) : BitVec 64 :=
  if pcCtrl then branchPc else pc4 currentPc

end Nextpc

/-! ## Flags -/

variable (a b : BitVec 64)

/-- The sign of a difference, unless the operands have different signs. -/
theorem msb_sub_of_msb_eq (h : a.msb = b.msb) : (a - b).msb = decide (a.toNat < b.toNat) := by
  have ha := a.isLt
  have hb := b.isLt
  rw [BitVec.msb_eq_decide, BitVec.msb_eq_decide, decide_eq_decide] at h
  rw [BitVec.msb_eq_decide, decide_eq_decide, BitVec.toNat_sub]
  omega

theorem slt_of_msb_eq (h : a.msb = b.msb) : a.slt b = decide (a.toNat < b.toNat) := by
  rw [BitVec.slt_eq_decide, decide_eq_decide, BitVec.toInt_eq_msb_cond, BitVec.toInt_eq_msb_cond, h]
  split <;> omega

/-- After a signed subtraction, the flag tells whether `a < b`. -/
theorem alu_sub_SF : (alu a b 0b0001#4).SF = a.slt b := by
  change (if a.msb == b.msb then (a - b).msb else a.msb) = a.slt b
  split
  case isTrue h => rw [msb_sub_of_msb_eq a b (beq_iff_eq.1 h), slt_of_msb_eq a b (beq_iff_eq.1 h)]
  case isFalse h =>
    have ha := a.isLt
    have hb := b.isLt
    rw [BitVec.slt_eq_decide, BitVec.toInt_eq_msb_cond, BitVec.toInt_eq_msb_cond]
    -- With different signs, the negative operand is the smaller one.
    cases hma : a.msb <;> cases hmb : b.msb <;> simp [hma, hmb] at h ⊢ <;> omega

/-- After an unsigned subtraction, the flag tells whether `a < b`. -/
theorem alu_subu_SF : (alu a b 0b1010#4).SF = a.ult b := by
  change (if a.msb == b.msb then (a - b).msb else b.msb) = a.ult b
  rw [BitVec.ult_eq_decide]
  split
  case isTrue h => exact msb_sub_of_msb_eq a b (beq_iff_eq.1 h)
  case isFalse h =>
    rw [BitVec.msb_eq_decide, BitVec.msb_eq_decide] at h
    rw [BitVec.msb_eq_decide, decide_eq_decide]
    -- With different top bits, the operand without is the smaller one.
    simp only [beq_iff_eq, decide_eq_decide] at h
    omega

/-- After a subtraction, the other flag tells whether `a = b`. -/
theorem sub_zero : (a - b == 0#64) = (a == b) := by
  rw [Bool.eq_iff_iff, beq_iff_eq, beq_iff_eq, BitVec.sub_eq_iff_eq_add, BitVec.zero_add]

/-! ## Words -/

/-- Extending the low word of a vector by its sign. -/
theorem ite_word (x : BitVec 64) : (if x.getLsbD 31 then 0xFFFFFFFF#32 ++ x.extractLsb 31 0
    else 0#32 ++ x.extractLsb 31 0 : BitVec 64) = (x.setWidth 32).signExtend 64 := by
  rw [← rep_word, rep]
  cases x.getLsbD 31 <;> rfl

theorem word_result (x : BitVec 64) : (word x).result = (x.setWidth 32).signExtend 64 := ite_word x

theorem toNat_shamt : (b.extractLsb 5 0).toNat = b.toNat % 64 := by
  rw [toNat_extractLsb]
  omega

theorem toNat_shamtw : (b.extractLsb 4 0).toNat = b.toNat % 32 := by
  rw [toNat_extractLsb]
  omega

theorem setWidth_shiftLeft (n : ℕ) : (a <<< n).setWidth 32 = a.setWidth 32 <<< n := by
  apply BitVec.eq_of_toNat_eq
  rw [BitVec.toNat_setWidth, BitVec.toNat_shiftLeft, BitVec.toNat_shiftLeft, BitVec.toNat_setWidth,
    Nat.shiftLeft_eq, Nat.shiftLeft_eq, Nat.mod_mul_mod]
  exact Nat.mod_mod_of_dvd _ (by decide)

theorem setWidth_shiftRight (n : ℕ) :
    ((0#32 ++ a.extractLsb 31 0 : BitVec 64) >>> n).setWidth 32 = a.setWidth 32 >>> n := by
  have hlt := Nat.div_le_self (a.setWidth 32).toNat (2 ^ n)
  have ha := (a.setWidth 32).isLt
  apply BitVec.eq_of_toNat_eq
  rw [BitVec.toNat_setWidth, BitVec.toNat_ushiftRight, BitVec.toNat_ushiftRight, zero_word,
    Nat.shiftRight_eq_div_pow]
  exact Nat.mod_eq_of_lt (by omega)

theorem signExtend_sshiftRight (x : BitVec 32) (n : ℕ) :
    (x.signExtend 64).sshiftRight n = (x.sshiftRight n).signExtend 64 := by
  apply BitVec.eq_of_toInt_eq
  rw [BitVec.toInt_sshiftRight, BitVec.toInt_signExtend_of_le (by decide),
    BitVec.toInt_signExtend_of_le (by decide), BitVec.toInt_sshiftRight]

/-! ## The operations of the instructions -/

open Rv64

/-- The operation of the ALU for an instruction on a register and an immediate. -/
def immAluc : ImmOp → BitVec 4
  | .addi => 0b0000#4
  | .slti => 0b0111#4
  | .sltiu => 0b1001#4
  | .xori => 0b0100#4
  | .ori => 0b0011#4
  | .andi => 0b0010#4

theorem alu_immAluc (op : ImmOp) : (alu a b (immAluc op)).result = op.apply a b := by
  cases op <;> rfl

/-- The operation of the ALU for a shift. -/
def shiftAluc : ShiftOp → BitVec 4
  | .slli => 0b0101#4
  | .srli => 0b0110#4
  | .srai => 0b1000#4

theorem alu_shiftAluc (op : ShiftOp) :
    (alu a b (shiftAluc op)).result = op.apply a (b.toNat % 64) := by
  rw [← toNat_shamt]
  cases op <;> rfl

/-- The operation of the ALU for a shift of words. -/
def shiftwAluc : ShiftOp → BitVec 4
  | .slli => 0b1101#4
  | .srli => 0b1110#4
  | .srai => 0b1111#4

theorem alu_shiftwAluc (op : ShiftOp) : (alu a b (shiftwAluc op)).result =
    (op.apply (a.setWidth 32) (b.toNat % 32)).signExtend 64 := by
  rw [← toNat_shamtw]
  cases op with
  | slli => exact (word_result _).trans (by rw [ShiftOp.apply, ← setWidth_shiftLeft]; rfl)
  | srli => exact (word_result _).trans (by rw [ShiftOp.apply, ← setWidth_shiftRight]; rfl)
  | srai =>
    rw [ShiftOp.apply, ← signExtend_sshiftRight, ← ite_word]
    rfl

/-- The operation of the ALU for an instruction on two registers. -/
def regAluc : RegOp → BitVec 4
  | .add => 0b0000#4
  | .sub => 0b0001#4
  | .sll => 0b0101#4
  | .slt => 0b0111#4
  | .sltu => 0b1001#4
  | .xor => 0b0100#4
  | .srl => 0b0110#4
  | .sra => 0b1000#4
  | .or => 0b0011#4
  | .and => 0b0010#4

theorem alu_regAluc (op : RegOp) : (alu a b (regAluc op)).result = op.apply a b := by
  cases op with
  | sll => exact alu_shiftAluc a b .slli
  | srl => exact alu_shiftAluc a b .srli
  | sra => exact alu_shiftAluc a b .srai
  | _ => rfl

/-- The operation of the ALU for an instruction on words. -/
def wordAluc : WordOp → BitVec 4
  | .addw => 0b1011#4
  | .subw => 0b1100#4
  | .sllw => 0b1101#4
  | .srlw => 0b1110#4
  | .sraw => 0b1111#4

theorem alu_addw : (alu a b 0b1011#4).result = Rv64.word (· + ·) a b :=
  (word_result _).trans (by rw [BitVec.setWidth_add _ _ (by decide), Rv64.word])

theorem alu_subw : (alu a b 0b1100#4).result = Rv64.word (· - ·) a b := by
  have hsub : (a - b).setWidth 32 = a.setWidth 32 - b.setWidth 32 := by
    apply BitVec.eq_of_toNat_eq
    simp only [BitVec.toNat_setWidth, BitVec.toNat_sub]
    omega
  exact (word_result _).trans (by rw [hsub, Rv64.word])

theorem alu_wordAluc (op : WordOp) : (alu a b (wordAluc op)).result = Rv64.word op.apply a b := by
  have hmod : b.toNat % 32 = (b.setWidth 32).toNat % 32 := by
    rw [BitVec.toNat_setWidth]
    omega
  cases op with
  | addw => exact alu_addw a b
  | subw => exact alu_subw a b
  | sllw => exact (alu_shiftwAluc a b .slli).trans (by rw [hmod]; rfl)
  | srlw => exact (alu_shiftwAluc a b .srli).trans (by rw [hmod]; rfl)
  | sraw => exact (alu_shiftwAluc a b .srai).trans (by rw [hmod]; rfl)

end RiscvCpu
