import Mathlib.Logic.Function.Iterate
import Mathlib.Order.Interval.Finset.Nat
import RiscvCpu.Common

/-!
# The differential test

The emulator compares the processor with a reference (`Difftest.step`), after every clock
edge: when the processor has committed instructions, the reference executes as many, and
then its registers must be those that the processor reports. The reference is loaded with
the program, and with the registers of the processor, when the first instruction commits.

The reference is a library, with a few functions (`Proxy`). This is the test for one core.
-/

namespace RiscvCpu

abbrev DIFFTEST_COMMIT_WIDTH : ℕ := 6

abbrev DIFFTEST_STORE_WIDTH : ℕ := 2

/-- The integer and floating-point registers, then the `csr` ones. -/
abbrev DIFFTEST_NR_REG : ℕ := 83

def FIRST_INST_ADDRESS : BitVec 64 := 0x80000000#64

def STATE_RUNNING : BitVec 32 := BitVec.ofInt 32 (-1)

abbrev RegState := Fin DIFFTEST_NR_REG → BitVec 64

/-- The first of the commits of a cycle. -/
def firstCommit : Fin DIFFTEST_COMMIT_WIDTH := ⟨0, by decide⟩

/-- The first of the `csr` registers. -/
def thisPc : Fin DIFFTEST_NR_REG := ⟨64, by decide⟩

/-! ## The reference -/

structure ExecutionGuide where
  exceptionNo : BitVec 64
  mtval : BitVec 64
  stval : BitVec 64

/-- The functions of the reference. Both directions of `regcpy` copy all registers. -/
structure Proxy (R : Type*) where
  exec : R → R
  regcpyToDut : R → RegState
  regcpyToRef : RegState → R → R
  memcpyToRef : BitVec 64 → List (BitVec 8) → R → R
  uarchstatusCpy : BitVec 64 → BitVec 64 → R → R
  guidedExec : ExecutionGuide → R → R
  raiseIntr : BitVec 64 → R → R
  /-- The next store, if it is this one. -/
  storeCommit : BitVec 64 → BitVec 64 → BitVec 8 → R → Bool × R

/-! ## What the processor reports -/

structure TrapEvent where
  valid : Bool
  code : BitVec 8

structure ArchEvent where
  interrupt : BitVec 32
  exception : BitVec 32
  exceptionPC : BitVec 64

structure InstrCommit where
  valid : Bool
  pc : BitVec 64
  inst : BitVec 32
  skip : Bool
  isRVC : Bool
  scFailed : Bool
  wen : Bool
  wdest : BitVec 8
  wdata : BitVec 64

structure StoreEvent where
  valid : Bool
  addr : BitVec 64
  data : BitVec 64
  mask : BitVec 8

/-- What is known of the processor. -/
structure CoreState where
  trap : TrapEvent
  event : ArchEvent
  commit : Fin DIFFTEST_COMMIT_WIDTH → InstrCommit
  regs : RegState
  store : Fin DIFFTEST_STORE_WIDTH → StoreEvent

/-! ## The test -/

structure Difftest (R : Type*) where
  proxy : R
  numCommit : BitVec 32
  hasCommit : Bool
  dut : CoreState
  ref : RegState
  progress : Bool
  ticks : BitVec 64
  lastCommit : BitVec 64
  nemuThisPc : BitVec 64

namespace Difftest

def firstCommitLimit : BitVec 64 := 5000#64

def stuckLimit : BitVec 64 := 5000#64

variable {R : Type*} (p : Proxy R) (d : Difftest R)

/-- No instruction was committed for too long. -/
def checkTimeout : Bool × Difftest R :=
  if !d.hasCommit && decide (d.ticks > d.lastCommit + firstCommitLimit) then (true, d)
  else if d.hasCommit && decide (d.ticks > d.lastCommit + stuckLimit) then
    (true, { d with proxy := p.exec d.proxy })
  else (false, d)

/-- With the first instruction, the reference gets the program and the registers. -/
def doFirstInstrCommit (img : List (BitVec 8)) : Difftest R :=
  if !d.hasCommit && (d.dut.commit firstCommit).valid &&
      (d.dut.commit firstCommit).pc == FIRST_INST_ADDRESS then
    { d with
      hasCommit := true
      nemuThisPc := d.dut.regs thisPc
      proxy := p.regcpyToRef d.dut.regs (p.memcpyToRef 0x80000000#64 img d.proxy) }
  else d

/-- The stores from the `i`-th on are compared. -/
def doStoreCheck (d : Difftest R) : List (Fin DIFFTEST_STORE_WIDTH) → Bool × Difftest R
  | [] => (false, d)
  | i :: is =>
    if !(d.dut.store i).valid then (false, d)
    else
      match p.storeCommit (d.dut.store i).addr (d.dut.store i).data (d.dut.store i).mask
        d.proxy with
      | (true, r) => (true, { d with proxy := r })
      | (false, r) =>
        doStoreCheck
          { d with
            proxy := r
            dut.store := Function.update d.dut.store i { d.dut.store i with valid := false } } is

def doInterrupt : Difftest R :=
  { d with
    proxy := p.raiseIntr (d.dut.event.interrupt.setWidth 64 ||| (1#64 <<< 63)) d.proxy
    progress := true }

def doException : Difftest R :=
  let e := d.dut.event.exception
  let r :=
    if e = 12#32 ∨ e = 13#32 ∨ e = 15#32 then
      p.guidedExec ⟨e.setWidth 64, d.dut.regs ⟨78, by decide⟩, d.dut.regs ⟨79, by decide⟩⟩ d.proxy
    else p.exec d.proxy
  { d with proxy := r, progress := true }

/-- The registers of the reference, when an instruction is not to be checked. Nothing, if
    it writes outside of them. -/
def skipped (c : InstrCommit) (ref : RegState) : Option RegState :=
  let ref := Function.update ref thisPc (ref thisPc + if c.isRVC then 2#64 else 4#64)
  if c.wen && c.wdest != 0#8 then
    if h : c.wdest.toNat < DIFFTEST_NR_REG then
      some (Function.update ref ⟨c.wdest.toNat, h⟩ c.wdata)
    else none
  else some ref

/-- An instruction is executed by the reference, or skipped. -/
def doInstrCommit (i : Fin DIFFTEST_COMMIT_WIDTH) : Option (Difftest R) :=
  let c := d.dut.commit i
  let r := if c.scFailed then p.uarchstatusCpy 0#64 0#64 d.proxy else d.proxy
  let d := { d with progress := true, lastCommit := d.ticks, proxy := r }
  if c.skip then
    (skipped c (p.regcpyToDut r)).map fun ref => { d with ref := ref, proxy := p.regcpyToRef ref r }
  else some { d with proxy := p.exec r }

/-- The commits from the `i`-th on are done. -/
def doInstrCommits (d : Difftest R) : List (Fin DIFFTEST_COMMIT_WIDTH) → Option (Difftest R)
  | [] => some d
  | i :: is =>
    if (d.dut.commit i).valid then
      (doInstrCommit p d i).bind fun d =>
        doInstrCommits
          { d with
            dut.commit := Function.update d.dut.commit i { d.dut.commit i with valid := false }
            numCommit := d.numCommit + 1#32 } is
    else some d

/-- What has happened in the processor is done in the reference. -/
def doEvents : Option (Difftest R) :=
  let d := { d with numCommit := 0#32 }
  if d.dut.event.interrupt ≠ 0#32 then
    some (doInterrupt p
      { d with dut.regs := Function.update d.dut.regs thisPc d.dut.event.exceptionPC })
  else if d.dut.event.exception ≠ 0#32 then
    some (doException p
      { d with dut.regs := Function.update d.dut.regs thisPc d.dut.event.exceptionPC })
  else doInstrCommits p d (List.finRange DIFFTEST_COMMIT_WIDTH)

/-- The registers are compared, with the program counter of the reference as it was before. -/
def compare : Bool × Difftest R :=
  let ref := p.regcpyToDut d.proxy
  let d := { d with
    ref := Function.update ref thisPc d.nemuThisPc
    nemuThisPc := ref thisPc }
  (decide (d.dut.regs ≠ d.ref), d)

/-- The program counter to compare is that of the first commit. -/
def start : Difftest R :=
  { d with
    progress := false
    ticks := d.ticks + 1#64
    dut.regs := Function.update d.dut.regs thisPc (d.dut.commit firstCommit).pc }

/-- The test after a clock edge: whether it has failed. Nothing, if it has written outside of
    the registers. -/
def step (img : List (BitVec 8)) : Option (Bool × Difftest R) :=
  match checkTimeout p d.start with
  | (true, d) => some (true, d)
  | (false, d) =>
    match doStoreCheck p (doFirstInstrCommit p d img) (List.finRange DIFFTEST_STORE_WIDTH) with
    | (true, d) => some (true, d)
    | (false, d) =>
      if !d.hasCommit then some (false, d)
      else (doEvents p d).map fun d => if !d.progress then (false, d) else compare p d

end Difftest

/-! ## Cycles -/

/-- The values of the `csr` registers, in the order of the comparison. -/
structure CsrState where
  mstatus : BitVec 64
  mcause : BitVec 64
  mepc : BitVec 64
  sstatus : BitVec 64
  scause : BitVec 64
  sepc : BitVec 64
  satp : BitVec 64
  mip : BitVec 64
  mie : BitVec 64
  mscratch : BitVec 64
  sscratch : BitVec 64
  mideleg : BitVec 64
  medeleg : BitVec 64
  mtval : BitVec 64
  stval : BitVec 64
  mtvec : BitVec 64
  stvec : BitVec 64
  priviledgeMode : BitVec 64

def CsrState.toList (c : CsrState) : List (BitVec 64) :=
  [c.mstatus, c.mcause, c.mepc, c.sstatus, c.scause, c.sepc, c.satp, c.mip, c.mie, c.mscratch,
    c.sscratch, c.mideleg, c.medeleg, c.mtval, c.stval, c.mtvec, c.stvec, c.priviledgeMode]

/-- The calls of the processor at a clock edge. There is one for each instruction that is
    committed, and one for each of the others. -/
structure Report where
  trap : TrapEvent
  commit : Fin DIFFTEST_COMMIT_WIDTH → Option InstrCommit
  gpr : BitVec 5 → BitVec 64
  csr : CsrState

namespace Report

variable (r : Report)

/-- The registers after the calls. The floating-point ones and `thisPc` stay. -/
def regs (old : RegState) : RegState := fun j =>
  if j.1 < 32 then r.gpr (BitVec.ofNat 5 j.1)
  else if j.1 ≤ 64 then old j
  else (r.csr.toList[j.1 - 65]?).getD 0#64

def receive (s : CoreState) : CoreState :=
  { s with
    trap := r.trap
    commit := fun i => (r.commit i).getD (s.commit i)
    regs := r.regs s.regs }

end Report

namespace Difftest

variable {R : Type*} (p : Proxy R)

/-- `difftest_state` -/
def trapCode (d : Difftest R) : BitVec 32 :=
  if d.dut.trap.valid then d.dut.trap.code.setWidth 32 else STATE_RUNNING

/-- A cycle of the emulator: the calls, and then the test. Nothing, if the emulator stops. -/
def cycle (d : Difftest R) (r : Report) (img : List (BitVec 8)) : Option (Difftest R) :=
  let d := { d with dut := r.receive d.dut }
  if d.trapCode ≠ STATE_RUNNING then none
  else (step p d img).bind fun x => if x.1 then none else some x.2

/-- The test after a number of cycles. -/
def after (d : Difftest R) (r : ℕ → Report) (img : ℕ → List (BitVec 8)) : ℕ → Option (Difftest R)
  | 0 => some d
  | n + 1 => (after d r img n).bind fun d => cycle p d (r n) (img n)

end Difftest

end RiscvCpu
