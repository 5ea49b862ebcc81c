import Mathlib.Data.Nat.Notation

/-!
# Buses

The requests and responses of the three buses. The core fetches instructions on
the instruction bus and loads and stores data on the data bus; both are carried by
the cache bus, which can transfer bursts. A request is presented, with `valid`, until
it is answered, with `data_ok` on the first two and with `last` on the third.
-/

namespace RiscvCpu

/-- The program counter after a reset. -/
def PCINIT : BitVec 64 := 0x0000000080000000#64

/-- `msize_t`: how many bytes are transferred at once. -/
inductive Msize
  | MSIZE1
  | MSIZE2
  | MSIZE4
  | MSIZE8
  deriving DecidableEq, Repr

namespace Msize

def bits : Msize → BitVec 3
  | MSIZE1 => 0b000#3
  | MSIZE2 => 0b001#3
  | MSIZE4 => 0b010#3
  | MSIZE8 => 0b011#3

def bytes : Msize → ℕ
  | MSIZE1 => 1
  | MSIZE2 => 2
  | MSIZE4 => 4
  | MSIZE8 => 8

end Msize

/-! ## The data bus -/

structure DbusReq where
  valid : Bool
  addr : BitVec 64
  /-- The number of bytes is `2 ^ size`. -/
  size : BitVec 3
  /-- The bytes that are written; none for a read. -/
  strobe : BitVec 8
  data : BitVec 64
  deriving DecidableEq, Repr

structure DbusResp where
  addrOk : Bool
  dataOk : Bool
  data : BitVec 64
  deriving DecidableEq, Repr

/-! ## The instruction bus -/

structure IbusReq where
  valid : Bool
  addr : BitVec 64
  deriving DecidableEq, Repr

structure IbusResp where
  addrOk : Bool
  dataOk : Bool
  data : BitVec 32
  deriving DecidableEq, Repr

/-! ## The cache bus -/

inductive AxiBurstType
  | FIXED
  | INCR
  | WRAP
  | RESERVED
  deriving DecidableEq, Repr

/-- `mlen_t`: the number of beats of a burst, less 1. -/
inductive Mlen
  | MLEN1
  | MLEN2
  | MLEN4
  | MLEN8
  | MLEN16
  | MLEN32
  | MLEN64
  | MLEN128
  | MLEN256
  deriving DecidableEq, Repr

namespace Mlen

def bits : Mlen → BitVec 8
  | MLEN1 => 0x00#8
  | MLEN2 => 0x01#8
  | MLEN4 => 0x03#8
  | MLEN8 => 0x07#8
  | MLEN16 => 0x0f#8
  | MLEN32 => 0x1f#8
  | MLEN64 => 0x3f#8
  | MLEN128 => 0x7f#8
  | MLEN256 => 0xff#8

def beats (len : Mlen) : ℕ := len.bits.toNat + 1

end Mlen

structure CbusReq where
  valid : Bool
  isWrite : Bool
  size : BitVec 3
  addr : BitVec 64
  strobe : BitVec 8
  data : BitVec 64
  /-- The number of beats is `len + 1`. -/
  len : BitVec 8
  burst : AxiBurstType
  deriving DecidableEq, Repr

structure CbusResp where
  ready : Bool
  last : Bool
  data : BitVec 64
  deriving DecidableEq, Repr

/-- `'0`. -/
def CbusReq.zero : CbusReq :=
  { valid := false, isWrite := false, size := 0#3, addr := 0#64, strobe := 0#8, data := 0#64,
    len := 0#8, burst := .FIXED }

/-- `'0`. -/
def CbusResp.zero : CbusResp := { ready := false, last := false, data := 0#64 }

end RiscvCpu
