import RiscvCpu.Common
import RiscvCpu.Core.Alu
import RiscvCpu.Core.ControlUnit
import RiscvCpu.Core.Lanes
import RiscvCpu.Core.Serial

/-!
# The datapath

The combinational network of the core: decoder, control unit, register file read,
ALU, multiplexers and byte lanes. It is evaluated on an instruction word, the program
counter and the registers (`wires`), and, for what is written back, on what the memory
and the units return (`Wires.writeregdata`).

* `wires_eq`: the network has no loop. The control unit sees the flags of the ALU, and
  the operands of the ALU are chosen by the control unit, but not by the output that
  depends on the flags.
* `datapath_correct`: on the encoding of an instruction, the network computes the
  effect of the instruction.
-/

namespace RiscvCpu

open Bits Rv64

/-- The registers `1` to `31`. -/
abbrev Regs := {i : BitVec 5 // i ≠ 0#5} → BitVec 64

namespace Regs

/-- A read port of the register file. -/
def read (regs : Regs) (rs : BitVec 5) : BitVec 64 :=
  if h : rs = 0#5 then 0#64 else regs ⟨rs, h⟩

/-- The write port. There is no register `0`: writes to it are lost. -/
def write (regs : Regs) (rd : BitVec 5) (v : BitVec 64) : Regs :=
  fun i => if i.1 = rd then v else regs i

@[simp] theorem read_zero (regs : Regs) : regs.read 0#5 = 0#64 := dif_pos rfl

theorem read_of_ne (regs : Regs) {rs : BitVec 5} (h : rs ≠ 0#5) : regs.read rs = regs ⟨rs, h⟩ :=
  dif_neg h

theorem read_write (regs : Regs) (rd rs : BitVec 5) (v : BitVec 64) :
    (regs.write rd v).read rs = if rs = rd ∧ rs ≠ 0#5 then v else regs.read rs := by
  by_cases h : rs = 0#5
  · rw [h, if_neg fun h => h.2 rfl, read_zero, read_zero]
  · rw [read_of_ne _ h, read_of_ne _ h, write]
    by_cases hrd : rs = rd <;> simp [hrd, h]
    exact fun h' => absurd (hrd ▸ h') h

end Regs

/-- The wires of the core that depend on the instruction, the program counter and the
    registers only. -/
structure Wires where
  dec : Decoded
  cu : Control
  rfq1 : BitVec 64
  rfq2 : BitVec 64
  alua : BitVec 64
  alub : BitVec 64
  alu : AluOut
  pc4 : BitVec 64
  branchPc : BitVec 64
  nextPc : BitVec 64
  writedata : BitVec 64
  strobe : BitVec 8
  deriving DecidableEq

/-- The combinational network. The control unit stands twice: for the wires to the
    ALU, before its flags are known, and after. -/
def wires (held : Control) (regs : Regs) (pc : BitVec 64) (instr : BitVec 32) : Wires :=
  let dec := decode instr
  let rfq1 := regs.read dec.rs1
  let rfq2 := regs.read dec.rs2
  let cu := controlunit dec.opcode dec.func7 dec.func3 false false held
  let alua := mux2 rfq1 pc cu.shift
  let alub := mux2 rfq2 dec.sextimm cu.aluimm
  let alu := alu alua alub cu.aluc
  let cu := controlunit dec.opcode dec.func7 dec.func3 alu.zero alu.SF held
  let pc4 := Nextpc.pc4 pc
  let branchPc := mux4 pc4 (pc + dec.sextimm) alu.result (alu.result &&& ~~~1#64) cu.jump
  let (writedata, strobe) := wd cu.wmem (alu.result.extractLsb 2 0) rfq2 cu.dByte
  { dec, cu, rfq1, rfq2, alua, alub, alu, pc4, branchPc
    nextPc := Nextpc.nPc pc branchPc cu.branch
    writedata, strobe }

namespace Wires

variable (w : Wires)

/-- The request on the data bus. -/
def dreq : DbusReq :=
  { valid := w.cu.dValid
    addr := w.alu.result
    size := w.cu.dByte
    strobe := w.strobe
    data := w.writedata }

/-- The inputs of the multiplier. -/
def mulIn : SerialIn :=
  { valid := w.cu.mulValid, a := w.alua, b := w.alub, s := w.cu.mulSign, w := w.cu.mulW }

/-- The inputs of the divider. -/
def divIn : SerialIn :=
  { valid := w.cu.divValid, a := w.alua, b := w.alub, s := w.cu.divSign, w := w.cu.divW }

/-- The bytes loaded, out of the word that memory returns. -/
def readdata (tempReaddata : BitVec 64) : BitVec 64 :=
  rd tempReaddata (w.alu.result.extractLsb 2 0) w.cu.dByte !w.cu.readSign

/-- The value written back. -/
def writeregdata (readdata mulres : BitVec 64) (divres : BitVec 128) : BitVec 64 :=
  mux8 w.alu.result readdata w.pc4 w.dec.sextimm mulres (divres.extractLsb 63 0)
    (divres.extractLsb 127 64) 0#64 w.cu.m2reg

/-- What is asked of memory, the multiplier and the divider. -/
def requests : List Request :=
  (if w.cu.dValid then
    [if w.cu.wmem then .store w.alu.result (2 ^ w.cu.dByte.toNat) w.rfq2
      else .load w.alu.result (2 ^ w.cu.dByte.toNat) w.cu.readSign] else []) ++
  (if w.cu.mulValid then [.mul w.cu.mulW w.alua w.alub] else []) ++
  (if w.cu.divValid then [.div w.cu.divSign w.cu.divW w.alua w.alub] else [])

/-- The register written with `v`, if there is one. -/
def write (v : BitVec 64) : Option (BitVec 5 × BitVec 64) :=
  if w.cu.wreg then some (w.dec.rd, v) else none

end Wires

variable (held : Control) (regs : Regs) (pc : BitVec 64)

/-- The equations of the source between the control unit and the ALU hold. -/
theorem wires_eq (instr : BitVec 32) :
    let w := wires held regs pc instr
    w.cu = controlunit w.dec.opcode w.dec.func7 w.dec.func3 w.alu.zero w.alu.SF held ∧
      w.alua = mux2 w.rfq1 pc w.cu.shift ∧ w.alub = mux2 w.rfq2 w.dec.sextimm w.cu.aluimm ∧
      w.alu = alu w.alua w.alub w.cu.aluc := by
  intro w
  -- The flags change `branch` only, and this is not among what the ALU gets.
  have hflags := controlunit_congr w.dec.opcode w.dec.func7 w.dec.func3 false false held
    w.alu.zero w.alu.SF held
  have hshift := congrArg Control.shift hflags
  have haluimm := congrArg Control.aluimm hflags
  have haluc := congrArg Control.aluc hflags
  refine ⟨rfl, ?_, ?_, ?_⟩
  · exact congrArg (mux2 w.rfq1 pc) hshift
  · exact congrArg (mux2 w.rfq2 w.dec.sextimm) haluimm
  · exact congrArg (alu w.alua w.alub) haluc

section Held

variable (instr : BitVec 32) (held' : Control)

theorem wires_cu_congr :
    (wires held regs pc instr).cu.fixed = (wires held' regs pc instr).cu.fixed :=
  controlunit_congr ..

theorem wires_alua_congr :
    (wires held regs pc instr).alua = (wires held' regs pc instr).alua := by
  have h := congrArg Control.shift (wires_cu_congr held regs pc instr held')
  rw [(wires_eq held regs pc instr).2.1, (wires_eq held' regs pc instr).2.1]
  exact congrArg (mux2 _ pc) h

theorem wires_alub_congr :
    (wires held regs pc instr).alub = (wires held' regs pc instr).alub := by
  have h := congrArg Control.aluimm (wires_cu_congr held regs pc instr held')
  rw [(wires_eq held regs pc instr).2.2.1, (wires_eq held' regs pc instr).2.2.1]
  exact congrArg (mux2 _ _) h

theorem wires_alu_congr : (wires held regs pc instr).alu = (wires held' regs pc instr).alu := by
  have h := congrArg Control.aluc (wires_cu_congr held regs pc instr held')
  rw [(wires_eq held regs pc instr).2.2.2, (wires_eq held' regs pc instr).2.2.2,
    wires_alua_congr held regs pc instr held', wires_alub_congr held regs pc instr held']
  exact congrArg (alu _ _) h

/-- What is asked does not depend on the retained values. -/
theorem wires_dreq_congr : (wires held regs pc instr).dreq = (wires held' regs pc instr).dreq := by
  have h := wires_cu_congr held regs pc instr held'
  have halu := wires_alu_congr held regs pc instr held'
  have hwd : wd (wires held regs pc instr).cu.wmem
      ((wires held regs pc instr).alu.result.extractLsb 2 0) (wires held regs pc instr).rfq2
      (wires held regs pc instr).cu.dByte = wd (wires held' regs pc instr).cu.wmem
      ((wires held' regs pc instr).alu.result.extractLsb 2 0) (wires held' regs pc instr).rfq2
      (wires held' regs pc instr).cu.dByte := by
    rw [halu]
    exact (congrArg (fun cu : Control => wd cu.wmem _ _ cu.dByte) h :)
  rw [Wires.dreq, Wires.dreq, DbusReq.mk.injEq]
  exact ⟨(congrArg Control.dValid h :), (congrArg AluOut.result halu :),
    (congrArg Control.dByte h :), (congrArg Prod.snd hwd :), (congrArg Prod.fst hwd :)⟩

theorem wires_mulIn_congr :
    (wires held regs pc instr).mulIn = (wires held' regs pc instr).mulIn := by
  have h := wires_cu_congr held regs pc instr held'
  rw [Wires.mulIn, Wires.mulIn, SerialIn.mk.injEq]
  exact ⟨(congrArg Control.mulValid h :), wires_alua_congr .., wires_alub_congr ..,
    (congrArg Control.mulSign h :), (congrArg Control.mulW h :)⟩

theorem wires_divIn_congr :
    (wires held regs pc instr).divIn = (wires held' regs pc instr).divIn := by
  have h := wires_cu_congr held regs pc instr held'
  rw [Wires.divIn, Wires.divIn, SerialIn.mk.injEq]
  exact ⟨(congrArg Control.divValid h :), wires_alua_congr .., wires_alub_congr ..,
    (congrArg Control.divSign h :), (congrArg Control.divW h :)⟩

theorem wires_readdata_congr (x : BitVec 64) :
    (wires held regs pc instr).readdata x = (wires held' regs pc instr).readdata x := by
  have h := wires_cu_congr held regs pc instr held'
  rw [Wires.readdata, Wires.readdata, wires_alu_congr held regs pc instr held']
  exact (congrArg (fun cu : Control => rd x _ cu.dByte !cu.readSign) h :)

end Held

/-! ## What a word asks for -/

section Asks

variable (instr : BitVec 32)

/-- Loads and stores. -/
def asksMem : Bool :=
  let opcode : BitVec 7 := instr.extractLsb 6 0
  opcode == 0b0000011#7 || opcode == 0b0100011#7

/-- `mul` and `mulw`. -/
def asksMul : Bool :=
  let opcode : BitVec 7 := instr.extractLsb 6 0
  let func3 : BitVec 3 := instr.extractLsb 14 12
  let func7 : BitVec 7 := instr.extractLsb 31 25
  (opcode == 0b0110011#7 || opcode == 0b0111011#7) && func7 == 0b0000001#7 && func3 == 0b000#3

/-- Divisions, and what the control unit takes for one. -/
def asksDiv : Bool :=
  let opcode : BitVec 7 := instr.extractLsb 6 0
  let func3 : BitVec 3 := instr.extractLsb 14 12
  let func7 : BitVec 7 := instr.extractLsb 31 25
  (opcode == 0b0110011#7 && func7 == 0b0000001#7 ||
      opcode == 0b0111011#7 && (func7 == 0b0000001#7 || func3 != 0b101#3)) &&
    (func3 == 0b100#3 || func3 == 0b101#3 || func3 == 0b110#3 || func3 == 0b111#3)

/-- What the core waits for. -/
def asks : Bool := asksMem instr || asksMul instr || asksDiv instr

/-- What the core keeps while it waits: `if_curr_ins`. -/
def keeps : Bool :=
  let opcode : BitVec 7 := instr.extractLsb 6 0
  let func7 : BitVec 7 := instr.extractLsb 31 25
  opcode == 0b0000011#7 || opcode == 0b0100011#7 ||
    (opcode == 0b0110011#7 && func7 == 0b0000001#7) ||
    (opcode == 0b0111011#7 && func7 == 0b0000001#7)

variable {instr}

theorem wires_dValid : (wires held regs pc instr).cu.dValid = asksMem instr := by
  have h := controlunit_dValid (decode instr).opcode (decode instr).func7 (decode instr).func3
    (wires held regs pc instr).alu.zero (wires held regs pc instr).alu.SF held
  exact h.trans (by rw [decode_opcode, asksMem])

theorem wires_mulValid : (wires held regs pc instr).cu.mulValid = asksMul instr := by
  have h := controlunit_mulValid (decode instr).opcode (decode instr).func7 (decode instr).func3
    (wires held regs pc instr).alu.zero (wires held regs pc instr).alu.SF held
  refine h.trans ?_
  rw [decode_opcode, asksMul]
  by_cases ho : instr.extractLsb 6 0 = 0b0110011#7 ∨ instr.extractLsb 6 0 = 0b0111011#7
  · rw [(decode_func ho).1, (decode_func ho).2]
  · push Not at ho
    have h1 : (instr.extractLsb 6 0 == 0b0110011#7) = false := beq_eq_false_iff_ne.2 ho.1
    have h2 : (instr.extractLsb 6 0 == 0b0111011#7) = false := beq_eq_false_iff_ne.2 ho.2
    rw [h1, h2]
    rfl

theorem wires_divValid : (wires held regs pc instr).cu.divValid = asksDiv instr := by
  have h := controlunit_divValid (decode instr).opcode (decode instr).func7 (decode instr).func3
    (wires held regs pc instr).alu.zero (wires held regs pc instr).alu.SF held
  refine h.trans ?_
  rw [decode_opcode, asksDiv]
  by_cases ho : instr.extractLsb 6 0 = 0b0110011#7 ∨ instr.extractLsb 6 0 = 0b0111011#7
  · rw [(decode_func ho).1, (decode_func ho).2]
  · push Not at ho
    have h1 : (instr.extractLsb 6 0 == 0b0110011#7) = false := beq_eq_false_iff_ne.2 ho.1
    have h2 : (instr.extractLsb 6 0 == 0b0111011#7) = false := beq_eq_false_iff_ne.2 ho.2
    rw [h1, h2]
    rfl

/-- A word that writes no register has the destination `0`. -/
theorem wires_rd (h : (wires held regs pc instr).cu.wreg = false) :
    (wires held regs pc instr).dec.rd = 0#5 := by
  have hw : (wires held regs pc instr).cu.wreg = hasRd (decode instr).opcode :=
    controlunit_wreg _ _ _ _ _ _
  rcases decode_rd instr with hrd | hrd
  · exact hrd
  · rw [hw, hrd] at h
    exact absurd h.symm Bool.false_ne_true

/-- At most one of the memory, the multiplier and the divider is asked. -/
theorem asksMem_excl (h : asksMem instr = true) :
    asksMul instr = false ∧ asksDiv instr = false := by
  simp only [asksMem, Bool.or_eq_true, beq_iff_eq] at h
  rcases h with h | h <;> simp [asksMul, asksDiv, h]

theorem asksMul_excl (h : asksMul instr = true) :
    asksMem instr = false ∧ asksDiv instr = false := by
  simp only [asksMul, Bool.and_eq_true, Bool.or_eq_true, beq_iff_eq] at h
  obtain ⟨⟨ho, -⟩, h3⟩ := h
  rcases ho with h | h <;> simp [asksMem, asksDiv, h, h3]

theorem asksDiv_excl (h : asksDiv instr = true) :
    asksMem instr = false ∧ asksMul instr = false := by
  constructor
  · by_contra hm
    rw [(asksMem_excl (eq_true_of_ne_false hm)).2] at h
    exact absurd h Bool.false_ne_true
  · by_contra hm
    rw [(asksMul_excl (eq_true_of_ne_false hm)).2] at h
    exact absurd h Bool.false_ne_true

end Asks

/-! ## The control of the instructions -/

section Control

variable (zero SF : Bool)

theorem controlunit_opImm (op : ImmOp) :
    controlunit 0b0010011#7 0b1111111#7 op.func3 zero SF held =
      { held.start with
        jump := 0b00#2, m2reg := 0b000#3, branch := false, wmem := false, shift := false,
        aluimm := true, wreg := true, aluc := immAluc op } := by
  cases op <;> rfl

theorem controlunit_shiftImm (op : ShiftOp) :
    controlunit 0b0010011#7 (op.func6 ++ 0b0#1) op.func3 zero SF held =
      { held.start with
        jump := 0b00#2, m2reg := 0b000#3, branch := false, wmem := false, shift := false,
        aluimm := true, wreg := true, aluc := shiftAluc op } := by
  cases op <;> rfl

theorem controlunit_shiftImmw (op : ShiftOp) :
    controlunit 0b0011011#7 (op.func6 ++ 0b0#1) op.func3 zero SF held =
      { held.start with
        jump := 0b00#2, m2reg := 0b000#3, branch := false, wmem := false, shift := false,
        aluimm := true, wreg := true, aluc := shiftwAluc op } := by
  cases op <;> rfl

/-- The output `branch` is not assigned. -/
theorem controlunit_opReg (op : RegOp) :
    controlunit 0b0110011#7 op.func7 op.func3 zero SF held =
      { held.start with
        jump := 0b00#2, m2reg := 0b000#3, wmem := false, shift := false,
        aluimm := false, wreg := true, aluc := regAluc op } := by
  cases op <;> rfl

theorem controlunit_opWord (op : WordOp) :
    controlunit 0b0111011#7 op.func7 op.func3 zero SF held =
      { held.start with
        jump := 0b00#2, m2reg := 0b000#3, branch := false, wmem := false, shift := false,
        aluimm := false, wreg := true, aluc := wordAluc op } := by
  cases op <;> rfl

/-- The half of the result of the units that an operation writes back. -/
def mulDivM2reg : MulDivOp → BitVec 3
  | .mul => 0b100#3
  | .div | .divu => 0b101#3
  | .rem | .remu => 0b110#3

/-- The signals to the units, from an operation and whether it is on words. -/
def mulDivControl (op : MulDivOp) (w : Bool) (cu : Control) : Control :=
  match op with
  | .mul => { cu with mulValid := true, mulSign := true, mulW := w }
  | .div | .rem => { cu with divValid := true, divSign := true, divW := w }
  | .divu | .remu => { cu with divValid := true, divW := w }

/-- The output `branch` is not assigned. -/
theorem controlunit_mulDiv (op : MulDivOp) :
    controlunit 0b0110011#7 0b0000001#7 op.func3 zero SF held =
      mulDivControl op false { held.start with
        jump := 0b00#2, m2reg := mulDivM2reg op, wmem := false, shift := false,
        aluimm := false, wreg := true, aluc := 0b0000#4 } := by
  cases op <;> rfl

theorem controlunit_mulDivw (op : MulDivOp) :
    controlunit 0b0111011#7 0b0000001#7 op.func3 zero SF held =
      mulDivControl op true { held.start with
        jump := 0b00#2, m2reg := mulDivM2reg op, branch := false, wmem := false, shift := false,
        aluimm := false, wreg := true, aluc := 0b0000#4 } := by
  cases op <;> rfl

/-- The operation of the ALU for a branch. -/
def branchAluc : BranchOp → BitVec 4
  | .beq | .bne | .blt | .bge => 0b0001#4
  | .bltu | .bgeu => 0b1010#4

/-- Whether a branch is taken, from the flags. -/
def branchFlag (zero SF : Bool) : BranchOp → Bool
  | .beq => zero
  | .bne => !zero
  | .blt | .bltu => SF
  | .bge | .bgeu => !SF

theorem controlunit_branch (op : BranchOp) :
    controlunit 0b1100011#7 0b1111111#7 op.func3 zero SF held =
      { held.start with
        jump := 0b01#2, m2reg := 0b000#3, branch := branchFlag zero SF op, wmem := false,
        shift := false, aluimm := false, wreg := false, aluc := branchAluc op } := by
  cases op <;> rfl

/-- The flags decide the branch. -/
theorem branchFlag_alu (op : BranchOp) (a b : BitVec 64) :
    branchFlag (alu a b (branchAluc op)).zero (alu a b (branchAluc op)).SF op = op.taken a b := by
  cases op with
  | beq => exact sub_zero a b
  | bne => exact congrArg (! ·) (sub_zero a b)
  | blt => exact alu_sub_SF a b
  | bge => exact congrArg (! ·) (alu_sub_SF a b)
  | bltu => exact alu_subu_SF a b
  | bgeu => exact congrArg (! ·) (alu_subu_SF a b)

/-- The size of a load or store, from its number of bytes. -/
def dByte : ℕ → BitVec 3
  | 1 => 0b000#3
  | 2 => 0b001#3
  | 4 => 0b010#3
  | _ => 0b011#3

theorem controlunit_load (op : LoadOp) :
    controlunit 0b0000011#7 0b1111111#7 op.func3 zero SF held =
      { held.start with
        dValid := true, jump := 0b00#2, m2reg := 0b001#3, branch := false, wmem := false,
        shift := false, aluimm := true, wreg := true, aluc := 0b0000#4, dByte := dByte op.bytes,
        readSign := op.signed } := by
  cases op <;> rfl

theorem controlunit_store (op : StoreOp) :
    controlunit 0b0100011#7 0b1111111#7 op.func3 zero SF held =
      { held.start with
        dValid := true, jump := 0b00#2, m2reg := 0b000#3, branch := false, wmem := true,
        shift := false, aluimm := true, wreg := false, aluc := 0b0000#4,
        dByte := dByte op.bytes } := by
  cases op <;> rfl

theorem LoadOp.two_pow_dByte (op : LoadOp) : 2 ^ (dByte op.bytes).toNat = op.bytes := by
  cases op <;> rfl

theorem StoreOp.two_pow_dByte (op : StoreOp) : 2 ^ (dByte op.bytes).toNat = op.bytes := by
  cases op <;> rfl

end Control

/-! ## Correctness -/

/-- The network has an effect: it chooses the next program counter, asks what is to be
    asked, and writes back what is to be written, whatever the memory and the units
    return. -/
structure Implements (w : Wires) (e : Effect) : Prop where
  nextPc : w.nextPc = e.nextPc
  requests : w.requests = e.request.toList
  write : ∀ readdata mulres divres,
    w.write (w.writeregdata readdata mulres divres) = e.write.map fun x =>
      (x.1, x.2.get readdata mulres (divres.extractLsb 63 0) (divres.extractLsb 127 64))

theorem toNat_shamt_setWidth (shamt : BitVec 6) : (shamt.setWidth 64).toNat % 64 = shamt.toNat := by
  have h := shamt.isLt
  rw [BitVec.toNat_setWidth]
  omega

theorem toNat_shamtw_setWidth (shamt : BitVec 5) :
    ((0#1 ++ shamt : BitVec 6).setWidth 64).toNat % 32 = shamt.toNat := by
  have h := shamt.isLt
  rw [BitVec.toNat_setWidth, toNat_zero_append]
  omega

/-- On the encoding of an instruction, the network computes its effect. -/
theorem datapath_correct (i : Instr) :
    Implements (wires held regs pc i.encode) (i.execute pc regs.read) := by
  rw [wires, decode_encode]
  cases i with
  | opImm op imm rs1 rd =>
    simp only [decoded, controlunit_opImm]
    refine ⟨rfl, rfl, fun _ _ _ => ?_⟩
    exact congrArg (fun v => some (rd, v)) (alu_immAluc _ _ op)
  | shiftImm op shamt rs1 rd =>
    have hb := alu_shiftAluc (regs.read rs1) (shamt.setWidth 64) op
    rw [toNat_shamt_setWidth] at hb
    simp only [decoded, controlunit_shiftImm]
    exact ⟨rfl, rfl, fun _ _ _ => congrArg (fun v => some (rd, v)) hb⟩
  | addiw imm rs1 rd =>
    refine ⟨rfl, rfl, fun _ _ _ => ?_⟩
    exact congrArg (fun v => some (rd, v)) (alu_addw (regs.read rs1) (imm.signExtend 64))
  -- The amount has 5 bits: its zero extension is below 32.
  | shiftImmw op shamt rs1 rd =>
    have hb := alu_shiftwAluc (regs.read rs1) ((0#1 ++ shamt : BitVec 6).setWidth 64) op
    rw [toNat_shamtw_setWidth] at hb
    simp only [decoded, controlunit_shiftImmw]
    exact ⟨rfl, rfl, fun _ _ _ => congrArg (fun v => some (rd, v)) hb⟩
  | opReg op rs2 rs1 rd =>
    simp only [decoded, controlunit_opReg]
    refine ⟨?_, rfl, fun _ _ _ => ?_⟩
    · -- Both inputs of the last multiplexer are `pc + 4`, so that the retained
      -- `branch` does not matter.
      exact ite_self (pc + 4)
    · exact congrArg (fun v => some (rd, v)) (alu_regAluc _ _ op)
  | opWord op rs2 rs1 rd =>
    simp only [decoded, controlunit_opWord]
    refine ⟨rfl, rfl, fun _ _ _ => ?_⟩
    exact congrArg (fun v => some (rd, v)) (alu_wordAluc _ _ op)
  | mulDiv op w rs2 rs1 rd =>
    cases w with
    | false =>
      simp only [decoded, controlunit_mulDiv]
      cases op <;> exact ⟨ite_self (pc + 4), rfl, fun _ _ _ => rfl⟩
    | true =>
      simp only [decoded, controlunit_mulDivw]
      cases op <;> exact ⟨rfl, rfl, fun _ _ _ => rfl⟩
  | lui imm rd =>
    refine ⟨rfl, rfl, fun _ _ _ => ?_⟩
    exact congrArg (fun v => some (rd, v)) (BitVec.zero_add ((imm ++ 0#12).signExtend 64))
  | auipc imm rd => exact ⟨rfl, rfl, fun _ _ _ => rfl⟩
  | jal imm rd => exact ⟨rfl, rfl, fun _ _ _ => rfl⟩
  | jalr imm rs1 rd => exact ⟨rfl, rfl, fun _ _ _ => rfl⟩
  | branch op imm rs2 rs1 =>
    simp only [decoded, controlunit_branch]
    refine ⟨?_, rfl, fun _ _ _ => rfl⟩
    exact congrArg (fun t => if t then pc + offset imm else pc + 4) (branchFlag_alu op _ _)
  | load op imm rs1 rd =>
    simp only [decoded, controlunit_load]
    refine ⟨rfl, ?_, fun _ _ _ => rfl⟩
    exact congrArg (fun n => [Request.load (regs.read rs1 + imm.signExtend 64) n op.signed])
      (LoadOp.two_pow_dByte op)
  | store op imm rs2 rs1 =>
    simp only [decoded, controlunit_store]
    refine ⟨rfl, ?_, fun _ _ _ => rfl⟩
    exact congrArg
      (fun n => [Request.store (regs.read rs1 + imm.signExtend 64) n (regs.read rs2)])
      (StoreOp.two_pow_dByte op)

end RiscvCpu
