import RiscvCpu.Common
import RiscvCpu.Core.Datapath
import RiscvCpu.Core.Div
import RiscvCpu.Core.Mul

/-!
# The core

The registers of the core, and its clock edge. In a cycle, the network of the datapath
is evaluated on the instruction word that is just fetched or, if there is none, on
`currInstr`, which keeps the word of an instruction while it waits for the memory, the
multiplier or the divider. The instruction is committed in the cycle with `ifHoldPc`.

The environment answers the requests on the two buses: `machine` is the core with an
environment that answers only when asked, after any time, with any words.
-/

namespace RiscvCpu

open Sync

/-- The registers of the core. -/
structure Core where
  /-- The register behind `ireq.valid`. -/
  ireqValid : Bool
  pc : BitVec 64
  currInstr : BitVec 32
  regs : Regs
  /-- The values reported for the registers. In each evaluation, the one of `rd` is
      assigned, and the others are retained. -/
  regNext : BitVec 5 → BitVec 64
  mul : SerialReg 129
  div : SerialReg 128

namespace Core

/-- The inputs of the core in a cycle. -/
structure In where
  iresp : IbusResp
  dresp : DbusResp
  /-- The last values of the outputs of the control unit, for those that are retained. -/
  held : Control

/-- A cycle without responses. -/
def In.wait : In where
  iresp := { addrOk := false, dataOk := false, data := 0#32 }
  dresp := { addrOk := false, dataOk := false, data := 0#64 }
  held := default

/-- A cycle in which a word is fetched. -/
def In.fetch (word : BitVec 32) : In :=
  { In.wait with iresp := { addrOk := true, dataOk := true, data := word } }

variable (s : Core) (i : In)

/-! ## Wires -/

def instr : BitVec 32 := if i.iresp.dataOk then i.iresp.data else s.currInstr

/-- The network of the datapath. -/
def net : Wires := wires i.held s.regs s.pc (s.instr i)

def ireq : IbusReq := { valid := s.ireqValid, addr := s.pc }

def dreq : DbusReq := (s.net i).dreq

def mulIn : SerialIn := (s.net i).mulIn

def divIn : SerialIn := (s.net i).divIn

def mulDone : Bool := s.mul.done

def mulres : BitVec 64 := Mul.c (s.mulIn i) s.mul.p

def divDone : Bool := s.div.done

def divres : BitVec 128 := Div.c (s.divIn i) s.div.p

def writeregdata : BitVec 64 :=
  (s.net i).writeregdata ((s.net i).readdata i.dresp.data) (s.mulres i) (s.divres i)

/-- The instruction is committed in this cycle. -/
def ifHoldPc : Bool :=
  (i.iresp.dataOk && !(s.dreq i).valid && !(s.mulIn i).valid && !(s.divIn i).valid) ||
    i.dresp.dataOk || s.mulDone || s.divDone

/-- The register file is written in this cycle. -/
def ifWreg : Bool :=
  (s.net i).cu.wreg &&
    ((!(s.dreq i).valid && !(s.mulIn i).valid && !(s.divIn i).valid) || i.dresp.dataOk ||
      s.mulDone || s.divDone)

/-- The word is to be kept in `currInstr`. -/
def ifCurrIns : Bool :=
  let opcode := (s.net i).dec.opcode
  let func7 := (s.net i).dec.func7
  opcode == 0b0000011#7 || opcode == 0b0100011#7 ||
    (opcode == 0b0110011#7 && func7 == 0b0000001#7) ||
    (opcode == 0b0111011#7 && func7 == 0b0000001#7)

/-- The values reported in this cycle. -/
def regNextOut : BitVec 5 → BitVec 64 := fun r =>
  if r = (s.net i).dec.rd then if (s.net i).dec.rd = 0#5 then 0#64 else s.writeregdata i
  else s.regNext r

/-! ## The clock edge -/

/-- The registers after the clock edge. -/
def next (reset : Bool) : Core where
  ireqValid :=
    if reset then true
    else if s.ifHoldPc i then true
    else if i.iresp.dataOk then false
    else s.ireqValid
  pc := if reset then PCINIT else if s.ifHoldPc i then (s.net i).nextPc else s.pc
  currInstr :=
    if reset then 0#32
    else if i.dresp.dataOk || s.mulDone || s.divDone || !s.ifCurrIns i then 0#32
    else if i.iresp.dataOk then s.instr i
    else s.currInstr
  regs :=
    if reset then fun _ => 0#64
    else if s.ifWreg i then s.regs.write (s.net i).dec.rd (s.regNextOut i (s.net i).dec.rd)
    else s.regs
  regNext := s.regNextOut i
  mul := Mul.next (s.mulIn i) reset s.mul
  div := Div.next (s.divIn i) reset s.div

/-- The registers after the initial reset. -/
def init : Core where
  ireqValid := true
  pc := PCINIT
  currInstr := 0#32
  regs := fun _ => 0#64
  regNext := fun _ => 0#64
  mul := .init
  div := .init

/-- The core, in an environment that answers requests. -/
def machine : Machine Core In where
  init := {init}
  admits s := {i | (i.iresp.dataOk = true → (s.ireq).valid = true) ∧
    (i.dresp.dataOk = true → (s.dreq i).valid = true)}
  next s i := s.next i false

end Core

end RiscvCpu
