import RiscvCpu.Rv64.Instr

/-!
# The fields of an instruction word

The slices of the encodings of each format are the fields they were put together
from: an encoding, as a number, is a sum of multiples of powers of two
(`toNat_rType` and so on), whose quotients and remainders are linear arithmetic.
-/

namespace Rv64

open Bits

variable (imm : BitVec 12) (imm' : BitVec 20) (rs2 rs1 rd : BitVec 5) (func3 : BitVec 3)
  (func7 opcode : BitVec 7)

theorem toNat_rType : (rType func7 rs2 rs1 func3 rd opcode).toNat =
    func7.toNat * 2 ^ 25 + rs2.toNat * 2 ^ 20 + rs1.toNat * 2 ^ 15 + func3.toNat * 2 ^ 12 +
      rd.toNat * 2 ^ 7 + opcode.toNat := by
  rw [rType, toNat_append, toNat_append, toNat_append, toNat_append, toNat_append]
  omega

theorem rType_fields :
    (rType func7 rs2 rs1 func3 rd opcode).extractLsb 6 0 = opcode ∧
    (rType func7 rs2 rs1 func3 rd opcode).extractLsb 11 7 = rd ∧
    (rType func7 rs2 rs1 func3 rd opcode).extractLsb 14 12 = func3 ∧
    (rType func7 rs2 rs1 func3 rd opcode).extractLsb 19 15 = rs1 ∧
    (rType func7 rs2 rs1 func3 rd opcode).extractLsb 24 20 = rs2 ∧
    (rType func7 rs2 rs1 func3 rd opcode).extractLsb 31 25 = func7 := by
  have h1 := opcode.isLt
  have h2 := rd.isLt
  have h3 := func3.isLt
  have h4 := rs1.isLt
  have h5 := rs2.isLt
  have h6 := func7.isLt
  simp only [← BitVec.toNat_inj, toNat_extractLsb, toNat_rType]
  omega

theorem toNat_iType : (iType imm rs1 func3 rd opcode).toNat =
    imm.toNat * 2 ^ 20 + rs1.toNat * 2 ^ 15 + func3.toNat * 2 ^ 12 + rd.toNat * 2 ^ 7 +
      opcode.toNat := by
  rw [iType, toNat_append, toNat_append, toNat_append, toNat_append]
  omega

theorem iType_fields :
    (iType imm rs1 func3 rd opcode).extractLsb 6 0 = opcode ∧
    (iType imm rs1 func3 rd opcode).extractLsb 11 7 = rd ∧
    (iType imm rs1 func3 rd opcode).extractLsb 14 12 = func3 ∧
    (iType imm rs1 func3 rd opcode).extractLsb 19 15 = rs1 ∧
    (iType imm rs1 func3 rd opcode).extractLsb 31 20 = imm ∧
    (iType imm rs1 func3 rd opcode).extractLsb 31 26 = imm.extractLsb 11 6 := by
  have h1 := opcode.isLt
  have h2 := rd.isLt
  have h3 := func3.isLt
  have h4 := rs1.isLt
  have h5 := imm.isLt
  simp only [← BitVec.toNat_inj, toNat_extractLsb, toNat_iType]
  omega

/-- The fields of the immediate of a shift. -/
theorem shift_fields (func6 shamt : BitVec 6) :
    (func6 ++ shamt : BitVec 12).extractLsb 11 6 = func6 ∧
    (func6 ++ shamt : BitVec 12).extractLsb 5 0 = shamt := by
  have h1 := func6.isLt
  have h2 := shamt.isLt
  simp only [← BitVec.toNat_inj, toNat_extractLsb, toNat_append]
  omega

theorem sType_fields :
    (sType imm rs2 rs1 func3 opcode).extractLsb 6 0 = opcode ∧
    (sType imm rs2 rs1 func3 opcode).extractLsb 11 7 = imm.extractLsb 4 0 ∧
    (sType imm rs2 rs1 func3 opcode).extractLsb 14 12 = func3 ∧
    (sType imm rs2 rs1 func3 opcode).extractLsb 19 15 = rs1 ∧
    (sType imm rs2 rs1 func3 opcode).extractLsb 24 20 = rs2 ∧
    (sType imm rs2 rs1 func3 opcode).extractLsb 31 25 = imm.extractLsb 11 5 :=
  rType_fields rs2 rs1 (imm.extractLsb 4 0) func3 (imm.extractLsb 11 5) opcode

theorem sType_imm : (imm.extractLsb 11 5 ++ imm.extractLsb 4 0 : BitVec 12) = imm := by
  have h := imm.isLt
  rw [← BitVec.toNat_inj, toNat_append, toNat_extractLsb, toNat_extractLsb]
  omega

theorem toNat_bType : (bType imm rs2 rs1 func3 opcode).toNat =
    (imm.extractLsb 11 11).toNat * 2 ^ 31 + (imm.extractLsb 9 4).toNat * 2 ^ 25 +
      rs2.toNat * 2 ^ 20 + rs1.toNat * 2 ^ 15 + func3.toNat * 2 ^ 12 +
      (imm.extractLsb 3 0).toNat * 2 ^ 8 + (imm.extractLsb 10 10).toNat * 2 ^ 7 + opcode.toNat := by
  rw [bType]
  simp only [toNat_append]
  omega

theorem bType_fields :
    (bType imm rs2 rs1 func3 opcode).extractLsb 6 0 = opcode ∧
    (bType imm rs2 rs1 func3 opcode).extractLsb 14 12 = func3 ∧
    (bType imm rs2 rs1 func3 opcode).extractLsb 19 15 = rs1 ∧
    (bType imm rs2 rs1 func3 opcode).extractLsb 24 20 = rs2 ∧
    (bType imm rs2 rs1 func3 opcode).extractLsb 7 7 = imm.extractLsb 10 10 ∧
    (bType imm rs2 rs1 func3 opcode).extractLsb 11 8 = imm.extractLsb 3 0 ∧
    (bType imm rs2 rs1 func3 opcode).extractLsb 30 25 = imm.extractLsb 9 4 ∧
    (bType imm rs2 rs1 func3 opcode).extractLsb 31 31 = imm.extractLsb 11 11 := by
  have h1 := opcode.isLt
  have h2 := (imm.extractLsb 10 10).isLt
  have h3 := (imm.extractLsb 3 0).isLt
  have h4 := func3.isLt
  have h5 := rs1.isLt
  have h6 := rs2.isLt
  have h7 := (imm.extractLsb 9 4).isLt
  have h8 := (imm.extractLsb 11 11).isLt
  simp only [← BitVec.toNat_inj, toNat_extractLsb (bType ..), toNat_bType]
  omega

theorem bType_imm : (imm.extractLsb 11 11 ++ (imm.extractLsb 10 10 ++ (imm.extractLsb 9 4 ++
    (imm.extractLsb 3 0 ++ 0#1))) : BitVec 13) = imm ++ 0#1 := by
  have h := imm.isLt
  rw [← BitVec.toNat_inj, toNat_append, toNat_append, toNat_append, toNat_append, toNat_append,
    toNat_extractLsb, toNat_extractLsb, toNat_extractLsb, toNat_extractLsb, BitVec.toNat_ofNat]
  omega

theorem toNat_uType : (uType imm' rd opcode).toNat =
    imm'.toNat * 2 ^ 12 + rd.toNat * 2 ^ 7 + opcode.toNat := by
  rw [uType, toNat_append, toNat_append]
  omega

theorem uType_fields :
    (uType imm' rd opcode).extractLsb 6 0 = opcode ∧
    (uType imm' rd opcode).extractLsb 11 7 = rd ∧
    (uType imm' rd opcode).extractLsb 31 12 = imm' := by
  have h1 := opcode.isLt
  have h2 := rd.isLt
  have h3 := imm'.isLt
  simp only [← BitVec.toNat_inj, toNat_extractLsb, toNat_uType]
  omega

theorem toNat_jType : (jType imm' rd opcode).toNat =
    (imm'.extractLsb 19 19).toNat * 2 ^ 31 + (imm'.extractLsb 9 0).toNat * 2 ^ 21 +
      (imm'.extractLsb 10 10).toNat * 2 ^ 20 + (imm'.extractLsb 18 11).toNat * 2 ^ 12 +
      rd.toNat * 2 ^ 7 + opcode.toNat := by
  rw [jType]
  simp only [toNat_append]
  omega

theorem jType_fields :
    (jType imm' rd opcode).extractLsb 6 0 = opcode ∧
    (jType imm' rd opcode).extractLsb 11 7 = rd ∧
    (jType imm' rd opcode).extractLsb 19 12 = imm'.extractLsb 18 11 ∧
    (jType imm' rd opcode).extractLsb 20 20 = imm'.extractLsb 10 10 ∧
    (jType imm' rd opcode).extractLsb 30 21 = imm'.extractLsb 9 0 ∧
    (jType imm' rd opcode).extractLsb 31 31 = imm'.extractLsb 19 19 := by
  have h1 := opcode.isLt
  have h2 := rd.isLt
  have h3 := (imm'.extractLsb 18 11).isLt
  have h4 := (imm'.extractLsb 10 10).isLt
  have h5 := (imm'.extractLsb 9 0).isLt
  have h6 := (imm'.extractLsb 19 19).isLt
  simp only [← BitVec.toNat_inj, toNat_extractLsb (jType ..), toNat_jType]
  omega

theorem jType_imm : (imm'.extractLsb 19 19 ++ (imm'.extractLsb 18 11 ++ (imm'.extractLsb 10 10 ++
    (imm'.extractLsb 9 0 ++ 0#1))) : BitVec 21) = imm' ++ 0#1 := by
  have h := imm'.isLt
  rw [← BitVec.toNat_inj, toNat_append, toNat_append, toNat_append, toNat_append, toNat_append,
    toNat_extractLsb, toNat_extractLsb, toNat_extractLsb, toNat_extractLsb, BitVec.toNat_ofNat]
  omega

end Rv64
