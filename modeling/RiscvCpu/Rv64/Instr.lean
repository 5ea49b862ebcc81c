import RiscvCpu.Rv64.MulDiv

/-!
# Instructions of RV64IM

The instructions that the program of this development is about, with their
encodings and their meaning, after the unprivileged RISC-V specification: the base
integer instructions but fences and system calls, and the multiplications and
divisions whose result is the low half of the product, a quotient or a remainder.

* `Instr`: an instruction and its operands. The immediates are the encoded bits:
  those of branches and jumps leave out the bit `0` of the offset, which is `0`,
  and the shifts of words have an amount of 5 bits.
* `Instr.encode`: the instruction word. `Legal` words are the encodings.
* `Instr.execute`: what an instruction does, given the program counter and the
  registers, up to memory and the long operations: the next program counter,
  what is asked of memory or of the multiplier and divider (`Request`), and which
  register is written with what (`Result`).
-/

namespace Rv64

/-! ## Syntax -/

/-- Operations on a register and an immediate. -/
inductive ImmOp
  | addi
  | slti
  | sltiu
  | xori
  | ori
  | andi
  deriving DecidableEq, Repr

/-- Shifts by an immediate. -/
inductive ShiftOp
  | slli
  | srli
  | srai
  deriving DecidableEq, Repr

/-- Operations on two registers. -/
inductive RegOp
  | add
  | sub
  | sll
  | slt
  | sltu
  | xor
  | srl
  | sra
  | or
  | and
  deriving DecidableEq, Repr

/-- Operations on two words. -/
inductive WordOp
  | addw
  | subw
  | sllw
  | srlw
  | sraw
  deriving DecidableEq, Repr

/-- Multiplication and division, also of words. -/
inductive MulDivOp
  | mul
  | div
  | divu
  | rem
  | remu
  deriving DecidableEq, Repr

/-- Branch conditions. -/
inductive BranchOp
  | beq
  | bne
  | blt
  | bge
  | bltu
  | bgeu
  deriving DecidableEq, Repr

/-- Loads. -/
inductive LoadOp
  | lb
  | lh
  | lw
  | ld
  | lbu
  | lhu
  | lwu
  deriving DecidableEq, Repr

/-- Stores. -/
inductive StoreOp
  | sb
  | sh
  | sw
  | sd
  deriving DecidableEq, Repr

/-- An instruction. -/
inductive Instr
  | opImm (op : ImmOp) (imm : BitVec 12) (rs1 rd : BitVec 5)
  | shiftImm (op : ShiftOp) (shamt : BitVec 6) (rs1 rd : BitVec 5)
  | addiw (imm : BitVec 12) (rs1 rd : BitVec 5)
  | shiftImmw (op : ShiftOp) (shamt : BitVec 5) (rs1 rd : BitVec 5)
  | opReg (op : RegOp) (rs2 rs1 rd : BitVec 5)
  | opWord (op : WordOp) (rs2 rs1 rd : BitVec 5)
  | mulDiv (op : MulDivOp) (w : Bool) (rs2 rs1 rd : BitVec 5)
  | lui (imm : BitVec 20) (rd : BitVec 5)
  | auipc (imm : BitVec 20) (rd : BitVec 5)
  | jal (imm : BitVec 20) (rd : BitVec 5)
  | jalr (imm : BitVec 12) (rs1 rd : BitVec 5)
  | branch (op : BranchOp) (imm : BitVec 12) (rs2 rs1 : BitVec 5)
  | load (op : LoadOp) (imm : BitVec 12) (rs1 rd : BitVec 5)
  | store (op : StoreOp) (imm : BitVec 12) (rs2 rs1 : BitVec 5)
  deriving DecidableEq, Repr

/-! ## Encoding -/

def rType (func7 : BitVec 7) (rs2 rs1 : BitVec 5) (func3 : BitVec 3) (rd : BitVec 5)
    (opcode : BitVec 7) : BitVec 32 :=
  func7 ++ rs2 ++ rs1 ++ func3 ++ rd ++ opcode

def iType (imm : BitVec 12) (rs1 : BitVec 5) (func3 : BitVec 3) (rd : BitVec 5)
    (opcode : BitVec 7) : BitVec 32 :=
  imm ++ rs1 ++ func3 ++ rd ++ opcode

def sType (imm : BitVec 12) (rs2 rs1 : BitVec 5) (func3 : BitVec 3) (opcode : BitVec 7) :
    BitVec 32 :=
  imm.extractLsb 11 5 ++ rs2 ++ rs1 ++ func3 ++ imm.extractLsb 4 0 ++ opcode

/-- The bits of the offset are `imm[12|10:5]` and `imm[4:1|11]`. -/
def bType (imm : BitVec 12) (rs2 rs1 : BitVec 5) (func3 : BitVec 3) (opcode : BitVec 7) :
    BitVec 32 :=
  imm.extractLsb 11 11 ++ imm.extractLsb 9 4 ++ rs2 ++ rs1 ++ func3 ++ imm.extractLsb 3 0 ++
    imm.extractLsb 10 10 ++ opcode

def uType (imm : BitVec 20) (rd : BitVec 5) (opcode : BitVec 7) : BitVec 32 :=
  imm ++ rd ++ opcode

/-- The bits of the offset are `imm[20|10:1|11|19:12]`. -/
def jType (imm : BitVec 20) (rd : BitVec 5) (opcode : BitVec 7) : BitVec 32 :=
  imm.extractLsb 19 19 ++ imm.extractLsb 9 0 ++ imm.extractLsb 10 10 ++ imm.extractLsb 18 11 ++
    rd ++ opcode

def ImmOp.func3 : ImmOp → BitVec 3
  | addi => 0b000#3
  | slti => 0b010#3
  | sltiu => 0b011#3
  | xori => 0b100#3
  | ori => 0b110#3
  | andi => 0b111#3

def ShiftOp.func3 : ShiftOp → BitVec 3
  | slli => 0b001#3
  | srli => 0b101#3
  | srai => 0b101#3

def ShiftOp.func6 : ShiftOp → BitVec 6
  | slli => 0b000000#6
  | srli => 0b000000#6
  | srai => 0b010000#6

def RegOp.func3 : RegOp → BitVec 3
  | add => 0b000#3
  | sub => 0b000#3
  | sll => 0b001#3
  | slt => 0b010#3
  | sltu => 0b011#3
  | xor => 0b100#3
  | srl => 0b101#3
  | sra => 0b101#3
  | or => 0b110#3
  | and => 0b111#3

def RegOp.func7 : RegOp → BitVec 7
  | sub => 0b0100000#7
  | sra => 0b0100000#7
  | _ => 0b0000000#7

def WordOp.func3 : WordOp → BitVec 3
  | addw => 0b000#3
  | subw => 0b000#3
  | sllw => 0b001#3
  | srlw => 0b101#3
  | sraw => 0b101#3

def WordOp.func7 : WordOp → BitVec 7
  | subw => 0b0100000#7
  | sraw => 0b0100000#7
  | _ => 0b0000000#7

def MulDivOp.func3 : MulDivOp → BitVec 3
  | mul => 0b000#3
  | div => 0b100#3
  | divu => 0b101#3
  | rem => 0b110#3
  | remu => 0b111#3

def BranchOp.func3 : BranchOp → BitVec 3
  | beq => 0b000#3
  | bne => 0b001#3
  | blt => 0b100#3
  | bge => 0b101#3
  | bltu => 0b110#3
  | bgeu => 0b111#3

def LoadOp.func3 : LoadOp → BitVec 3
  | lb => 0b000#3
  | lh => 0b001#3
  | lw => 0b010#3
  | ld => 0b011#3
  | lbu => 0b100#3
  | lhu => 0b101#3
  | lwu => 0b110#3

def StoreOp.func3 : StoreOp → BitVec 3
  | sb => 0b000#3
  | sh => 0b001#3
  | sw => 0b010#3
  | sd => 0b011#3

/-- The instruction word. -/
def Instr.encode : Instr → BitVec 32
  | opImm op imm rs1 rd => iType imm rs1 op.func3 rd 0b0010011#7
  | shiftImm op shamt rs1 rd => iType (op.func6 ++ shamt) rs1 op.func3 rd 0b0010011#7
  | addiw imm rs1 rd => iType imm rs1 0b000#3 rd 0b0011011#7
  | shiftImmw op shamt rs1 rd => iType (op.func6 ++ (0#1 ++ shamt)) rs1 op.func3 rd 0b0011011#7
  | opReg op rs2 rs1 rd => rType op.func7 rs2 rs1 op.func3 rd 0b0110011#7
  | opWord op rs2 rs1 rd => rType op.func7 rs2 rs1 op.func3 rd 0b0111011#7
  | mulDiv op false rs2 rs1 rd => rType 0b0000001#7 rs2 rs1 op.func3 rd 0b0110011#7
  | mulDiv op true rs2 rs1 rd => rType 0b0000001#7 rs2 rs1 op.func3 rd 0b0111011#7
  | lui imm rd => uType imm rd 0b0110111#7
  | auipc imm rd => uType imm rd 0b0010111#7
  | jal imm rd => jType imm rd 0b1101111#7
  | jalr imm rs1 rd => iType imm rs1 0b000#3 rd 0b1100111#7
  | branch op imm rs2 rs1 => bType imm rs2 rs1 op.func3 0b1100011#7
  | load op imm rs1 rd => iType imm rs1 op.func3 rd 0b0000011#7
  | store op imm rs2 rs1 => sType imm rs2 rs1 op.func3 0b0100011#7

/-- The words that encode an instruction. -/
def Legal (word : BitVec 32) : Prop := ∃ i : Instr, i.encode = word

/-! ## Meaning -/

def ImmOp.apply (op : ImmOp) (a b : BitVec 64) : BitVec 64 :=
  match op with
  | addi => a + b
  | slti => if a.slt b then 1#64 else 0#64
  | sltiu => if a.ult b then 1#64 else 0#64
  | xori => a ^^^ b
  | ori => a ||| b
  | andi => a &&& b

def ShiftOp.apply {w : ℕ} (op : ShiftOp) (a : BitVec w) (shamt : ℕ) : BitVec w :=
  match op with
  | slli => a <<< shamt
  | srli => a >>> shamt
  | srai => a.sshiftRight shamt

def RegOp.apply (op : RegOp) (a b : BitVec 64) : BitVec 64 :=
  match op with
  | add => a + b
  | sub => a - b
  | sll => a <<< (b.toNat % 64)
  | slt => if a.slt b then 1#64 else 0#64
  | sltu => if a.ult b then 1#64 else 0#64
  | xor => a ^^^ b
  | srl => a >>> (b.toNat % 64)
  | sra => a.sshiftRight (b.toNat % 64)
  | or => a ||| b
  | and => a &&& b

def WordOp.apply (op : WordOp) (a b : BitVec 32) : BitVec 32 :=
  match op with
  | addw => a + b
  | subw => a - b
  | sllw => a <<< (b.toNat % 32)
  | srlw => a >>> (b.toNat % 32)
  | sraw => a.sshiftRight (b.toNat % 32)

def BranchOp.taken (op : BranchOp) (a b : BitVec 64) : Bool :=
  match op with
  | beq => a == b
  | bne => a != b
  | blt => a.slt b
  | bge => !a.slt b
  | bltu => a.ult b
  | bgeu => !a.ult b

/-- The number of bytes of a load. -/
def LoadOp.bytes : LoadOp → ℕ
  | lb | lbu => 1
  | lh | lhu => 2
  | lw | lwu => 4
  | ld => 8

/-- Whether the bytes loaded are sign-extended. (`ld` has nothing to extend.) -/
def LoadOp.signed : LoadOp → Bool
  | lb | lh | lw => true
  | ld | lbu | lhu | lwu => false

/-- The number of bytes of a store. -/
def StoreOp.bytes : StoreOp → ℕ
  | sb => 1
  | sh => 2
  | sw => 4
  | sd => 8

/-- What an instruction asks of memory, the multiplier or the divider. -/
inductive Request
  | load (addr : BitVec 64) (bytes : ℕ) (signed : Bool)
  | store (addr : BitVec 64) (bytes : ℕ) (data : BitVec 64)
  | mul (w : Bool) (a b : BitVec 64)
  | div (s w : Bool) (a b : BitVec 64)
  deriving DecidableEq, Repr

/-- The value written to the destination: known at once, or an answer. -/
inductive Result
  | value (v : BitVec 64)
  | loaded
  | product
  | quotient
  | remainder
  deriving DecidableEq, Repr

/-- The value, given the answers. -/
def Result.get (loaded product quotient remainder : BitVec 64) : Result → BitVec 64
  | .value v => v
  | .loaded => loaded
  | .product => product
  | .quotient => quotient
  | .remainder => remainder

/-- The effect of an instruction. -/
structure Effect where
  nextPc : BitVec 64
  request : Option Request := none
  write : Option (BitVec 5 × Result) := none
  deriving DecidableEq, Repr

def MulDivOp.request (op : MulDivOp) (w : Bool) (a b : BitVec 64) : Request :=
  match op with
  | mul => .mul w a b
  | div => .div true w a b
  | divu => .div false w a b
  | rem => .div true w a b
  | remu => .div false w a b

def MulDivOp.result : MulDivOp → Result
  | mul => .product
  | div | divu => .quotient
  | rem | remu => .remainder

/-- The offset of a branch or jump. -/
def offset {w : ℕ} (imm : BitVec w) : BitVec 64 := (imm ++ 0#1).signExtend 64

/-- What an instruction does at `pc`, with the registers `x`. -/
def Instr.execute (i : Instr) (pc : BitVec 64) (x : BitVec 5 → BitVec 64) : Effect :=
  match i with
  | opImm op imm rs1 rd =>
    { nextPc := pc + 4, write := some (rd, .value (op.apply (x rs1) (imm.signExtend 64))) }
  | shiftImm op shamt rs1 rd =>
    { nextPc := pc + 4, write := some (rd, .value (op.apply (x rs1) shamt.toNat)) }
  | addiw imm rs1 rd =>
    { nextPc := pc + 4
      write := some (rd, .value (Rv64.word (· + ·) (x rs1) (imm.signExtend 64))) }
  | shiftImmw op shamt rs1 rd =>
    { nextPc := pc + 4
      write := some (rd, .value ((op.apply ((x rs1).setWidth 32) shamt.toNat).signExtend 64)) }
  | opReg op rs2 rs1 rd =>
    { nextPc := pc + 4, write := some (rd, .value (op.apply (x rs1) (x rs2))) }
  | opWord op rs2 rs1 rd =>
    { nextPc := pc + 4, write := some (rd, .value (Rv64.word op.apply (x rs1) (x rs2))) }
  | mulDiv op w rs2 rs1 rd =>
    { nextPc := pc + 4
      request := some (op.request w (x rs1) (x rs2))
      write := some (rd, op.result) }
  | lui imm rd =>
    { nextPc := pc + 4, write := some (rd, .value ((imm ++ 0#12).signExtend 64)) }
  | auipc imm rd =>
    { nextPc := pc + 4, write := some (rd, .value (pc + (imm ++ 0#12).signExtend 64)) }
  | jal imm rd => { nextPc := pc + offset imm, write := some (rd, .value (pc + 4)) }
  | jalr imm rs1 rd =>
    { nextPc := (x rs1 + imm.signExtend 64) &&& ~~~1#64, write := some (rd, .value (pc + 4)) }
  | branch op imm rs2 rs1 =>
    { nextPc := if op.taken (x rs1) (x rs2) then pc + offset imm else pc + 4 }
  | load op imm rs1 rd =>
    { nextPc := pc + 4
      request := some (.load (x rs1 + imm.signExtend 64) op.bytes op.signed)
      write := some (rd, .loaded) }
  | store op imm rs2 rs1 =>
    { nextPc := pc + 4
      request := some (.store (x rs1 + imm.signExtend 64) op.bytes (x rs2)) }

end Rv64
