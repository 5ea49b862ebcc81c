import RiscvCpu.Rv64.Fields

/-!
# The decoder

`decode` takes an instruction word apart into its fields, and reassembles the
immediate. `decode_encode` gives its output on the encodings of instructions:
the operands come back as they were encoded, and the immediate sign-extended.
-/

namespace RiscvCpu

open Bits Rv64

/-- The outputs of the decoder. -/
@[ext]
structure Decoded where
  rs1 : BitVec 5
  rs2 : BitVec 5
  rd : BitVec 5
  sextimm : BitVec 64
  opcode : BitVec 7
  func3 : BitVec 3
  func7 : BitVec 7
  deriving DecidableEq, Repr

namespace Decode

/-- Sign extension from the bit `11` of the immediate. -/
def sext12 (immediate : BitVec 32) : BitVec 64 :=
  if immediate.getLsbD 11 then 0xFFFFFFFFFFFFF#52 ++ immediate.extractLsb 11 0
  else 0x00000000#32 ++ immediate

/-- Sign extension from the bit `12` of the immediate. -/
def sext13 (immediate : BitVec 32) : BitVec 64 :=
  if immediate.getLsbD 12 then 0x7FFFFFFFFFFFF#51 ++ immediate.extractLsb 12 0
  else 0x00000000#32 ++ immediate

/-- Sign extension from the bit `20` of the immediate. -/
def sext21 (immediate : BitVec 32) : BitVec 64 :=
  if immediate.getLsbD 20 then 0x7FFFFFFFFFF#43 ++ immediate.extractLsb 20 0
  else 0x00000000#32 ++ immediate

/-- Sign extension from the bit `31` of the immediate. -/
def sext32 (immediate : BitVec 32) : BitVec 64 :=
  if immediate.getLsbD 31 then 0xFFFFFFFF#32 ++ immediate else 0x00000000#32 ++ immediate

end Decode

open Decode

/-- The decoder. The `immediate` of a case is the assigned slices of the word, and
    `0` elsewhere. -/
def decode (instr : BitVec 32) : Decoded :=
  let opcode := instr.extractLsb 6 0
  match opcode with
  | 0b0000011#7 => -- ld, lb, lh, lw, lbu, lhu, lwu
    let immediate : BitVec 32 := 0#20 ++ instr.extractLsb 31 20
    { opcode
      rs1 := instr.extractLsb 19 15
      rs2 := 0b00000#5
      func3 := instr.extractLsb 14 12
      func7 := 0b1111111#7
      rd := instr.extractLsb 11 7
      sextimm := sext12 immediate }
  | 0b0010011#7 => -- addi, xori, ori, andi, slti, sltiu, slli, srli, srai
    let immediate : BitVec 32 := 0#20 ++ instr.extractLsb 31 20
    let func3 : BitVec 3 := instr.extractLsb 14 12
    { opcode
      rs1 := instr.extractLsb 19 15
      rs2 := 0b00000#5
      func3
      rd := instr.extractLsb 11 7
      func7 := match func3 with
        | 0b001#3 => instr.extractLsb 31 26 ++ 0b0#1
        | 0b101#3 => instr.extractLsb 31 26 ++ 0b0#1
        | _ => 0b1111111#7
      sextimm := match func3 with
        | 0b001#3 => 0#58 ++ immediate.extractLsb 5 0
        | 0b101#3 => 0#58 ++ immediate.extractLsb 5 0
        | _ => sext12 immediate }
  | 0b0010111#7 => -- auipc
    let immediate : BitVec 32 := instr.extractLsb 31 12 ++ 0#12
    { opcode
      rd := instr.extractLsb 11 7
      rs1 := 0b00000#5
      rs2 := 0b00000#5
      func3 := 0b111#3
      func7 := 0b1111111#7
      sextimm := sext32 immediate }
  | 0b0011011#7 => -- addiw, slliw, srliw, sraiw
    let immediate : BitVec 32 := 0#20 ++ instr.extractLsb 31 20
    let func3 : BitVec 3 := instr.extractLsb 14 12
    { opcode
      rs1 := instr.extractLsb 19 15
      rs2 := 0b00000#5
      func3
      rd := instr.extractLsb 11 7
      func7 := match func3 with
        | 0b000#3 => 0b1111111#7
        | 0b001#3 => instr.extractLsb 31 26 ++ 0b0#1
        | 0b101#3 => instr.extractLsb 31 26 ++ 0b0#1
        | _ => 0b1111111#7
      sextimm := match func3 with
        | 0b000#3 => sext12 immediate
        | 0b001#3 => 0#58 ++ immediate.extractLsb 5 0
        | 0b101#3 => 0#58 ++ immediate.extractLsb 5 0
        | _ => sext12 immediate }
  | 0b0100011#7 => -- sd, sb, sh, sw
    let immediate : BitVec 32 := 0#20 ++ (instr.extractLsb 31 25 ++ instr.extractLsb 11 7)
    { opcode
      rs1 := instr.extractLsb 19 15
      rs2 := instr.extractLsb 24 20
      func3 := instr.extractLsb 14 12
      func7 := 0b1111111#7
      rd := 0b00000#5
      sextimm := sext12 immediate }
  | 0b0110011#7 => -- add, sub, and, or, xor, sll, slt, sltu, srl, sra, mul, div, divu, rem, remu
    { opcode
      func7 := instr.extractLsb 31 25
      rs2 := instr.extractLsb 24 20
      rs1 := instr.extractLsb 19 15
      func3 := instr.extractLsb 14 12
      rd := instr.extractLsb 11 7
      sextimm := 0#64 }
  | 0b0110111#7 => -- lui
    let immediate : BitVec 32 := instr.extractLsb 31 12 ++ 0#12
    { opcode
      rd := instr.extractLsb 11 7
      rs1 := 0b00000#5
      rs2 := 0b00000#5
      func3 := 0b111#3
      func7 := 0b1111111#7
      sextimm := sext32 immediate }
  | 0b0111011#7 => -- addw, subw, sllw, srlw, sraw
    { opcode
      sextimm := 0#64
      func7 := instr.extractLsb 31 25
      rs2 := instr.extractLsb 24 20
      rs1 := instr.extractLsb 19 15
      func3 := instr.extractLsb 14 12
      rd := instr.extractLsb 11 7 }
  | 0b1100011#7 => -- beq, bne, blt, bge, bltu, bgeu
    let immediate : BitVec 32 := 0#19 ++ (instr.extractLsb 31 31 ++ (instr.extractLsb 7 7 ++
      (instr.extractLsb 30 25 ++ (instr.extractLsb 11 8 ++ 0#1))))
    { opcode
      rs2 := instr.extractLsb 24 20
      rs1 := instr.extractLsb 19 15
      func3 := instr.extractLsb 14 12
      rd := 0b00000#5
      func7 := 0b1111111#7
      sextimm := sext13 immediate }
  | 0b1100111#7 => -- jalr
    let immediate : BitVec 32 := 0#20 ++ instr.extractLsb 31 20
    { opcode
      rs1 := instr.extractLsb 19 15
      func3 := instr.extractLsb 14 12
      rd := instr.extractLsb 11 7
      rs2 := 0b00000#5
      func7 := 0b1111111#7
      sextimm := sext12 immediate }
  | 0b1101111#7 => -- jal
    let immediate : BitVec 32 := 0#11 ++ (instr.extractLsb 31 31 ++ (instr.extractLsb 19 12 ++
      (instr.extractLsb 20 20 ++ (instr.extractLsb 30 21 ++ 0#1))))
    { opcode
      rd := instr.extractLsb 11 7
      rs1 := 0b00000#5
      rs2 := 0b00000#5
      func3 := 0b111#3
      func7 := 0b1111111#7
      sextimm := sext21 immediate }
  | _ =>
    { opcode
      rs1 := 0b00000#5
      rs2 := 0b00000#5
      rd := 0b00000#5
      func3 := 0b111#3
      func7 := 0b1111111#7
      sextimm := 0#64 }

theorem decode_opcode (instr : BitVec 32) : (decode instr).opcode = instr.extractLsb 6 0 := by
  unfold decode
  dsimp only
  split <;> rfl

/-- The operations on two registers keep the function fields. -/
theorem decode_func {instr : BitVec 32}
    (h : instr.extractLsb 6 0 = 0b0110011#7 ∨ instr.extractLsb 6 0 = 0b0111011#7) :
    (decode instr).func3 = instr.extractLsb 14 12 ∧
      (decode instr).func7 = instr.extractLsb 31 25 := by
  rcases h with h | h <;> simp only [decode, h, and_self]

/-- The opcodes of the instructions with a destination. -/
def hasRd (opcode : BitVec 7) : Bool :=
  opcode == 0b0000011#7 || opcode == 0b0010011#7 || opcode == 0b0010111#7 ||
    opcode == 0b0011011#7 || opcode == 0b0110011#7 || opcode == 0b0110111#7 ||
    opcode == 0b0111011#7 || opcode == 0b1100111#7 || opcode == 0b1101111#7

/-- The other words are decoded with the destination `0`. -/
theorem decode_rd (instr : BitVec 32) :
    (decode instr).rd = 0#5 ∨ hasRd (decode instr).opcode = true := by
  rw [decode_opcode]
  unfold decode
  dsimp only
  split <;> simp [hasRd, *]

/-! ## Immediates -/

section Sext

variable {l m n : ℕ}

theorem toNat_zero_append (imm : BitVec n) : (0#m ++ imm).toNat = imm.toNat := by
  rw [toNat_append, BitVec.toNat_ofNat, Nat.zero_mod, zero_mul, zero_add]

theorem getLsbD_zero_append (imm : BitVec n) (hn : 0 < n) :
    (0#m ++ imm).getLsbD (n - 1) = imm.msb := by
  rw [BitVec.getLsbD_append, if_pos (Nat.sub_one_lt hn.ne'), BitVec.msb_eq_getLsbD_last]

/-- Filling up with ones if the sign bit is set, and with zeros if not, is sign extension. -/
theorem ite_msb {imm : BitVec n} {b : Bool} {x y : BitVec (l + n)} (hb : b = imm.msb)
    (hx : x = BitVec.allOnes l ++ imm) (hy : y.toNat = imm.toNat) :
    (if b then x else y) = imm.signExtend (l + n) := by
  rw [← rep_msb_append, hb, hx]
  cases imm.msb with
  | true => rfl
  | false =>
    apply BitVec.eq_of_toNat_eq
    rw [if_neg Bool.false_ne_true, hy]
    exact (toNat_zero_append imm).symm

theorem sext12_append (imm : BitVec 12) : sext12 (0#20 ++ imm) = imm.signExtend 64 := by
  have hl : (0#20 ++ imm : BitVec 32).extractLsb 11 0 = imm := by
    have h := imm.isLt
    rw [← BitVec.toNat_inj, toNat_extractLsb, toNat_zero_append]
    omega
  exact ite_msb (l := 52) (getLsbD_zero_append imm (by decide)) (by rw [hl]; rfl)
    (by rw [toNat_zero_append, toNat_zero_append])

theorem sext13_append (imm : BitVec 13) : sext13 (0#19 ++ imm) = imm.signExtend 64 := by
  have hl : (0#19 ++ imm : BitVec 32).extractLsb 12 0 = imm := by
    have h := imm.isLt
    rw [← BitVec.toNat_inj, toNat_extractLsb, toNat_zero_append]
    omega
  exact ite_msb (l := 51) (getLsbD_zero_append imm (by decide)) (by rw [hl]; rfl)
    (by rw [toNat_zero_append, toNat_zero_append])

theorem sext21_append (imm : BitVec 21) : sext21 (0#11 ++ imm) = imm.signExtend 64 := by
  have hl : (0#11 ++ imm : BitVec 32).extractLsb 20 0 = imm := by
    have h := imm.isLt
    rw [← BitVec.toNat_inj, toNat_extractLsb, toNat_zero_append]
    omega
  exact ite_msb (l := 43) (getLsbD_zero_append imm (by decide)) (by rw [hl]; rfl)
    (by rw [toNat_zero_append, toNat_zero_append])

theorem sext32_eq (imm : BitVec 32) : sext32 imm = imm.signExtend 64 :=
  ite_msb (l := 32) (BitVec.msb_eq_getLsbD_last imm).symm rfl (toNat_zero_append imm)

/-- The amount of a shift, in the low bits of the immediate. -/
theorem shamt_append (func6 shamt : BitVec 6) :
    (0#58 ++ (0#20 ++ (func6 ++ shamt : BitVec 12) : BitVec 32).extractLsb 5 0 : BitVec 64) =
      shamt.setWidth 64 := by
  have h := shamt.isLt
  rw [← BitVec.toNat_inj, toNat_zero_append, toNat_extractLsb, toNat_zero_append, toNat_append,
    BitVec.toNat_setWidth]
  omega

end Sext

/-! ## The encodings -/

/-- What the decoder makes of an instruction. -/
def decoded : Instr → Decoded
  | .opImm op imm rs1 rd =>
    ⟨rs1, 0b00000#5, rd, imm.signExtend 64, 0b0010011#7, op.func3, 0b1111111#7⟩
  | .shiftImm op shamt rs1 rd =>
    ⟨rs1, 0b00000#5, rd, shamt.setWidth 64, 0b0010011#7, op.func3, op.func6 ++ 0b0#1⟩
  | .addiw imm rs1 rd =>
    ⟨rs1, 0b00000#5, rd, imm.signExtend 64, 0b0011011#7, 0b000#3, 0b1111111#7⟩
  | .shiftImmw op shamt rs1 rd =>
    ⟨rs1, 0b00000#5, rd, (0#1 ++ shamt : BitVec 6).setWidth 64, 0b0011011#7, op.func3,
      op.func6 ++ 0b0#1⟩
  | .opReg op rs2 rs1 rd => ⟨rs1, rs2, rd, 0#64, 0b0110011#7, op.func3, op.func7⟩
  | .opWord op rs2 rs1 rd => ⟨rs1, rs2, rd, 0#64, 0b0111011#7, op.func3, op.func7⟩
  | .mulDiv op false rs2 rs1 rd => ⟨rs1, rs2, rd, 0#64, 0b0110011#7, op.func3, 0b0000001#7⟩
  | .mulDiv op true rs2 rs1 rd => ⟨rs1, rs2, rd, 0#64, 0b0111011#7, op.func3, 0b0000001#7⟩
  | .lui imm rd =>
    ⟨0b00000#5, 0b00000#5, rd, (imm ++ 0#12).signExtend 64, 0b0110111#7, 0b111#3, 0b1111111#7⟩
  | .auipc imm rd =>
    ⟨0b00000#5, 0b00000#5, rd, (imm ++ 0#12).signExtend 64, 0b0010111#7, 0b111#3, 0b1111111#7⟩
  | .jal imm rd => ⟨0b00000#5, 0b00000#5, rd, offset imm, 0b1101111#7, 0b111#3, 0b1111111#7⟩
  | .jalr imm rs1 rd =>
    ⟨rs1, 0b00000#5, rd, imm.signExtend 64, 0b1100111#7, 0b000#3, 0b1111111#7⟩
  | .branch op imm rs2 rs1 =>
    ⟨rs1, rs2, 0b00000#5, offset imm, 0b1100011#7, op.func3, 0b1111111#7⟩
  | .load op imm rs1 rd =>
    ⟨rs1, 0b00000#5, rd, imm.signExtend 64, 0b0000011#7, op.func3, 0b1111111#7⟩
  | .store op imm rs2 rs1 =>
    ⟨rs1, rs2, 0b00000#5, imm.signExtend 64, 0b0100011#7, op.func3, 0b1111111#7⟩

/-- The decoder takes the encoding of an instruction apart. -/
theorem decode_encode (i : Instr) : decode i.encode = decoded i := by
  cases i with
  | opImm op imm rs1 rd =>
    obtain ⟨h1, h2, h3, h4, h5, h6⟩ := iType_fields imm rs1 rd op.func3 0b0010011#7
    simp only [Instr.encode, decode, decoded, h1, h2, h3, h4, h5]
    -- None of these has the `func3` of a shift.
    cases op <;> exact Decoded.ext rfl rfl rfl (sext12_append imm) rfl rfl rfl
  -- The upper six bits of the immediate are `func7` but for its last bit.
  | shiftImm op shamt rs1 rd =>
    obtain ⟨h1, h2, h3, h4, h5, h6⟩ :=
      iType_fields (op.func6 ++ shamt) rs1 rd op.func3 0b0010011#7
    have h7 := (shift_fields op.func6 shamt).1
    simp only [Instr.encode, decode, decoded, h1, h2, h3, h4, h5, h6, h7]
    cases op <;> exact Decoded.ext rfl rfl rfl (shamt_append _ shamt) rfl rfl rfl
  | addiw imm rs1 rd =>
    obtain ⟨h1, h2, h3, h4, h5, h6⟩ := iType_fields imm rs1 rd 0b000#3 0b0011011#7
    simp only [Instr.encode, decode, decoded, h1, h2, h3, h4, h5]
    exact Decoded.ext rfl rfl rfl (sext12_append imm) rfl rfl rfl
  | shiftImmw op shamt rs1 rd =>
    obtain ⟨h1, h2, h3, h4, h5, h6⟩ :=
      iType_fields (op.func6 ++ (0#1 ++ shamt)) rs1 rd op.func3 0b0011011#7
    have h7 := (shift_fields op.func6 (0#1 ++ shamt)).1
    simp only [Instr.encode, decode, decoded, h1, h2, h3, h4, h5, h6, h7]
    cases op <;> exact Decoded.ext rfl rfl rfl (shamt_append _ (0#1 ++ shamt)) rfl rfl rfl
  | opReg op rs2 rs1 rd =>
    obtain ⟨h1, h2, h3, h4, h5, h6⟩ := rType_fields rs2 rs1 rd op.func3 op.func7 0b0110011#7
    simp only [Instr.encode, decode, decoded, h1, h2, h3, h4, h5, h6]
  | opWord op rs2 rs1 rd =>
    obtain ⟨h1, h2, h3, h4, h5, h6⟩ := rType_fields rs2 rs1 rd op.func3 op.func7 0b0111011#7
    simp only [Instr.encode, decode, decoded, h1, h2, h3, h4, h5, h6]
  | mulDiv op w rs2 rs1 rd =>
    cases w with
    | false =>
      obtain ⟨h1, h2, h3, h4, h5, h6⟩ := rType_fields rs2 rs1 rd op.func3 0b0000001#7 0b0110011#7
      simp only [Instr.encode, decode, decoded, h1, h2, h3, h4, h5, h6]
    | true =>
      obtain ⟨h1, h2, h3, h4, h5, h6⟩ := rType_fields rs2 rs1 rd op.func3 0b0000001#7 0b0111011#7
      simp only [Instr.encode, decode, decoded, h1, h2, h3, h4, h5, h6]
  | lui imm rd =>
    obtain ⟨h1, h2, h3⟩ := uType_fields imm rd 0b0110111#7
    simp only [Instr.encode, decode, decoded, h1, h2, h3, sext32_eq]
  | auipc imm rd =>
    obtain ⟨h1, h2, h3⟩ := uType_fields imm rd 0b0010111#7
    simp only [Instr.encode, decode, decoded, h1, h2, h3, sext32_eq]
  | jal imm rd =>
    obtain ⟨h1, h2, h3, h4, h5, h6⟩ := jType_fields imm rd 0b1101111#7
    simp only [Instr.encode, decode, decoded, h1, h2, h3, h4, h5, h6, jType_imm]
    exact Decoded.ext rfl rfl rfl (sext21_append _) rfl rfl rfl
  | jalr imm rs1 rd =>
    obtain ⟨h1, h2, h3, h4, h5, h6⟩ := iType_fields imm rs1 rd 0b000#3 0b1100111#7
    simp only [Instr.encode, decode, decoded, h1, h2, h3, h4, h5]
    exact Decoded.ext rfl rfl rfl (sext12_append imm) rfl rfl rfl
  | branch op imm rs2 rs1 =>
    obtain ⟨h1, h2, h3, h4, h5, h6, h7, h8⟩ := bType_fields imm rs2 rs1 op.func3 0b1100011#7
    simp only [Instr.encode, decode, decoded, h1, h2, h3, h4, h5, h6, h7, h8, bType_imm]
    exact Decoded.ext rfl rfl rfl (sext13_append _) rfl rfl rfl
  | load op imm rs1 rd =>
    obtain ⟨h1, h2, h3, h4, h5, h6⟩ := iType_fields imm rs1 rd op.func3 0b0000011#7
    simp only [Instr.encode, decode, decoded, h1, h2, h3, h4, h5]
    exact Decoded.ext rfl rfl rfl (sext12_append imm) rfl rfl rfl
  | store op imm rs2 rs1 =>
    obtain ⟨h1, h2, h3, h4, h5, h6⟩ := sType_fields imm rs2 rs1 op.func3 0b0100011#7
    simp only [Instr.encode, decode, decoded, h1, h2, h3, h4, h5, h6, sType_imm]
    exact Decoded.ext rfl rfl rfl (sext12_append imm) rfl rfl rfl

end RiscvCpu
