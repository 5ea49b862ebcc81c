import RiscvCpu.Core.Decode

/-!
# The control unit

`controlunit` chooses, from the opcode and the function fields, what the
multiplexers select, what the ALU computes, and which of the memory, the
multiplier and the divider is asked for something.

Some cases leave an output unassigned: it retains its last value, which the model
takes from `held`. These are `branch` on the opcode `0110011`, and `m2reg` on this
opcode with an unknown `func7`. The flags of the ALU only reach `branch`, so that there
is no loop through the ALU (`controlunit_congr`).
-/

namespace RiscvCpu

/-- The outputs of the control unit. -/
@[ext]
structure Control where
  jump : BitVec 2
  m2reg : BitVec 3
  branch : Bool
  wmem : Bool
  aluc : BitVec 4
  shift : Bool
  aluimm : Bool
  wreg : Bool
  dValid : Bool
  dByte : BitVec 3
  readSign : Bool
  mulValid : Bool
  divValid : Bool
  mulSign : Bool
  divSign : Bool
  mulW : Bool
  divW : Bool
  deriving DecidableEq, Repr, Inhabited

/-- The values before the case statement: the defaults of its first lines, and the
    retained values of the other outputs. -/
def Control.start (held : Control) : Control :=
  { held with
    dValid := false, dByte := 0b000#3, readSign := false, mulValid := false, divValid := false,
    mulSign := false, divSign := false, mulW := false, divW := false }

/-- The control unit. -/
def controlunit (opcode func7 : BitVec 7) (func3 : BitVec 3) (zero SF : Bool) (held : Control) :
    Control :=
  let cu := held.start
  match opcode with
  | 0b0000011#7 => -- ld, lb, lh, lw, lbu, lhu, lwu
    let cu := { cu with
      dValid := true, jump := 0b00#2, m2reg := 0b001#3, branch := false, wmem := false,
      shift := false, aluimm := true, wreg := true, aluc := 0b0000#4 }
    match func3 with
    | 0b000#3 => { cu with dByte := 0b000#3, readSign := true } -- lb
    | 0b001#3 => { cu with dByte := 0b001#3, readSign := true } -- lh
    | 0b010#3 => { cu with dByte := 0b010#3, readSign := true } -- lw
    | 0b011#3 => { cu with dByte := 0b011#3 } -- ld
    | 0b100#3 => { cu with dByte := 0b000#3 } -- lbu
    | 0b101#3 => { cu with dByte := 0b001#3 } -- lhu
    | 0b110#3 => { cu with dByte := 0b010#3 } -- lwu
    | _ => { cu with dByte := 0b000#3 }
  | 0b0010011#7 => -- addi, xori, ori, andi, slti, sltiu, slli, srli, srai
    { cu with
      jump := 0b00#2, m2reg := 0b000#3, branch := false, wmem := false, shift := false,
      aluimm := true, wreg := true
      aluc := match func3 with
        | 0b000#3 => 0b0000#4 -- addi
        | 0b001#3 => 0b0101#4 -- slli
        | 0b010#3 => 0b0111#4 -- slti
        | 0b011#3 => 0b1001#4 -- sltiu
        | 0b100#3 => 0b0100#4 -- xori
        | 0b101#3 => match func7 with
          | 0b0000000#7 => 0b0110#4 -- srli
          | 0b0100000#7 => 0b1000#4 -- srai
          | _ => 0b0000#4
        | 0b110#3 => 0b0011#4 -- ori
        | 0b111#3 => 0b0010#4 -- andi
        | _ => 0b0000#4 }
  | 0b0010111#7 => -- auipc
    { cu with
      jump := 0b00#2, m2reg := 0b000#3, branch := false, wmem := false, aluc := 0b0000#4,
      shift := true, aluimm := true, wreg := true }
  | 0b0011011#7 => -- addiw, slliw, srliw, sraiw
    { cu with
      jump := 0b00#2, m2reg := 0b000#3, branch := false, wmem := false, shift := false,
      aluimm := true, wreg := true
      aluc := match func3 with
        | 0b000#3 => 0b1011#4 -- addiw
        | 0b001#3 => 0b1101#4 -- slliw
        | 0b101#3 => match func7 with
          | 0b0000000#7 => 0b1110#4 -- srliw
          | 0b0100000#7 => 0b1111#4 -- sraiw
          | _ => 0b0000#4
        | _ => 0b0000#4 }
  | 0b0100011#7 => -- sd, sb, sh, sw
    { cu with
      dValid := true, jump := 0b00#2, m2reg := 0b000#3, branch := false, wmem := true,
      shift := false, aluimm := true, wreg := false, aluc := 0b0000#4
      dByte := match func3 with
        | 0b000#3 => 0b000#3 -- sb
        | 0b001#3 => 0b001#3 -- sh
        | 0b010#3 => 0b010#3 -- sw
        | 0b011#3 => 0b011#3 -- sd
        | _ => 0b000#3 }
  | 0b0110011#7 => -- add, sub, and, or, xor, sll, slt, sltu, srl, sra
    -- `branch` is not assigned.
    let cu := { cu with
      jump := 0b00#2, wmem := false, shift := false, aluimm := false, wreg := true }
    match func7 with
    | 0b0000000#7 =>
      { cu with
        m2reg := 0b000#3
        aluc := match func3 with
          | 0b000#3 => 0b0000#4 -- add
          | 0b001#3 => 0b0101#4 -- sll
          | 0b010#3 => 0b0111#4 -- slt
          | 0b011#3 => 0b1001#4 -- sltu
          | 0b100#3 => 0b0100#4 -- xor
          | 0b101#3 => 0b0110#4 -- srl
          | 0b110#3 => 0b0011#4 -- or
          | 0b111#3 => 0b0010#4 -- and
          | _ => 0b0000#4 }
    | 0b0000001#7 =>
      let cu := { cu with aluc := 0b0000#4 }
      match func3 with
      | 0b000#3 => { cu with m2reg := 0b100#3, mulValid := true, mulSign := true } -- mul
      | 0b100#3 => { cu with m2reg := 0b101#3, divValid := true, divSign := true } -- div
      | 0b101#3 => { cu with m2reg := 0b101#3, divValid := true } -- divu
      | 0b110#3 => { cu with m2reg := 0b110#3, divValid := true, divSign := true } -- rem
      | 0b111#3 => { cu with m2reg := 0b110#3, divValid := true } -- remu
      | _ => { cu with m2reg := 0b000#3, divValid := false }
    | 0b0100000#7 =>
      { cu with
        m2reg := 0b000#3
        aluc := match func3 with
          | 0b000#3 => 0b0001#4 -- sub
          | 0b101#3 => 0b1000#4 -- sra
          | _ => 0b0000#4 }
    | _ => { cu with aluc := 0b0000#4 } -- `m2reg` is not assigned.
  | 0b0110111#7 => -- lui
    { cu with
      jump := 0b00#2, m2reg := 0b000#3, branch := false, wmem := false, aluc := 0b0000#4,
      shift := false, aluimm := true, wreg := true }
  | 0b0111011#7 => -- addw, subw, sllw, srlw, sraw, mulw, divw, divuw, remw, remuw
    let cu := { cu with
      jump := 0b00#2, branch := false, wmem := false, shift := false, aluimm := false,
      wreg := true }
    match func3 with
    | 0b000#3 =>
      match func7 with
      | 0b0000000#7 => { cu with aluc := 0b1011#4, m2reg := 0b000#3 } -- addw
      | 0b0000001#7 => -- mulw
        { cu with
          aluc := 0b0000#4, m2reg := 0b100#3, mulValid := true, mulSign := true, mulW := true }
      | 0b0100000#7 => { cu with aluc := 0b1100#4, m2reg := 0b000#3 } -- subw
      | _ => { cu with aluc := 0b0000#4, m2reg := 0b000#3 }
    | 0b001#3 => { cu with aluc := 0b1101#4, m2reg := 0b000#3 } -- sllw
    | 0b100#3 => -- divw
      { cu with
        aluc := 0b0000#4, m2reg := 0b101#3, divValid := true, divSign := true, divW := true }
    | 0b101#3 =>
      match func7 with
      | 0b0000000#7 => { cu with aluc := 0b1110#4, m2reg := 0b000#3 } -- srlw
      | 0b0000001#7 => -- divuw
        { cu with aluc := 0b0000#4, m2reg := 0b101#3, divValid := true, divW := true }
      | 0b0100000#7 => { cu with aluc := 0b1111#4, m2reg := 0b000#3 } -- sraw
      | _ => { cu with aluc := 0b0000#4, m2reg := 0b000#3 }
    | 0b110#3 => -- remw
      { cu with
        aluc := 0b0000#4, m2reg := 0b110#3, divValid := true, divSign := true, divW := true }
    | 0b111#3 => -- remuw
      { cu with aluc := 0b0000#4, m2reg := 0b110#3, divValid := true, divW := true }
    | _ => { cu with aluc := 0b0000#4, m2reg := 0b000#3 }
  | 0b1100011#7 => -- beq, bne, blt, bge, bltu, bgeu
    let cu := { cu with
      jump := 0b01#2, m2reg := 0b000#3, wmem := false, shift := false, aluimm := false,
      wreg := false }
    match func3 with
    | 0b000#3 => { cu with branch := zero, aluc := 0b0001#4 } -- beq
    | 0b001#3 => { cu with branch := !zero, aluc := 0b0001#4 } -- bne
    | 0b100#3 => { cu with branch := SF, aluc := 0b0001#4 } -- blt
    | 0b101#3 => { cu with branch := !SF, aluc := 0b0001#4 } -- bge
    | 0b110#3 => { cu with branch := SF, aluc := 0b1010#4 } -- bltu
    | 0b111#3 => { cu with branch := !SF, aluc := 0b1010#4 } -- bgeu
    | _ => { cu with branch := false, aluc := 0b0000#4 }
  | 0b1100111#7 => -- jalr
    { cu with
      jump := 0b11#2, m2reg := 0b010#3, branch := true, wmem := false, aluc := 0b0000#4,
      shift := false, aluimm := true, wreg := true }
  | 0b1101111#7 => -- jal
    { cu with
      jump := 0b10#2, m2reg := 0b010#3, branch := true, wmem := false, aluc := 0b0000#4,
      shift := true, aluimm := true, wreg := true }
  | _ =>
    { cu with
      jump := 0b00#2, m2reg := 0b000#3, branch := false, wmem := false, aluc := 0b0000#4,
      shift := false, aluimm := false, wreg := false }

variable (opcode func7 : BitVec 7) (func3 : BitVec 3) (zero SF : Bool) (held : Control)

/-- The outputs that are assigned in all cases, and do not depend on the flags. -/
def Control.fixed (cu : Control) : Control := { cu with branch := false, m2reg := 0b000#3 }

/-- The flags and the retained values only reach `branch` and `m2reg`. -/
theorem controlunit_congr (zero' SF' : Bool) (held' : Control) :
    (controlunit opcode func7 func3 zero SF held).fixed =
      (controlunit opcode func7 func3 zero' SF' held').fixed := by
  unfold controlunit
  dsimp only
  split
  all_goals repeat' split
  all_goals rfl

/-- The memory is asked by loads and stores. -/
theorem controlunit_dValid : (controlunit opcode func7 func3 zero SF held).dValid =
    (opcode == 0b0000011#7 || opcode == 0b0100011#7) := by
  unfold controlunit
  dsimp only
  split
  -- The last case is that of all other opcodes.
  case h_12 => simp_all [Control.start]
  all_goals repeat' split
  all_goals rfl

/-- The multiplier is asked by `mul` and `mulw`. -/
theorem controlunit_mulValid : (controlunit opcode func7 func3 zero SF held).mulValid =
    ((opcode == 0b0110011#7 || opcode == 0b0111011#7) && func7 == 0b0000001#7 &&
      func3 == 0b000#3) := by
  unfold controlunit
  dsimp only
  split
  all_goals repeat' split
  all_goals simp_all [Control.start]

/-- The divider is asked by `div`, `divu`, `rem`, `remu` and their `W` forms, and by
    every word with the opcode and the `func3` of `divw`, `remw` or `remuw`: their
    cases do not test `func7`. -/
theorem controlunit_divValid : (controlunit opcode func7 func3 zero SF held).divValid =
    ((opcode == 0b0110011#7 && func7 == 0b0000001#7 ||
        opcode == 0b0111011#7 && (func7 == 0b0000001#7 || func3 != 0b101#3)) &&
      (func3 == 0b100#3 || func3 == 0b101#3 || func3 == 0b110#3 || func3 == 0b111#3)) := by
  unfold controlunit
  dsimp only
  split
  all_goals repeat' split
  all_goals simp_all [Control.start]

/-- The instructions with a destination write it. -/
theorem controlunit_wreg :
    (controlunit opcode func7 func3 zero SF held).wreg = hasRd opcode := by
  unfold controlunit
  dsimp only
  split
  case h_12 => simp_all [hasRd]
  all_goals repeat' split
  all_goals rfl

end RiscvCpu
