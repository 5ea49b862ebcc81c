import RiscvCpu.Common

/-!
# Converters

The requests on the instruction bus and on the data bus are requests of a single beat on
the cache bus. The last beat is the answer. Instructions are fetched through the data bus:
of the word of 64 bits, the instruction bus returns the half that the address selects.
-/

namespace RiscvCpu

namespace DBusToCBus

def dcreq (dreq : DbusReq) : CbusReq where
  valid := dreq.valid
  isWrite := dreq.strobe != 0#8
  size := dreq.size
  addr := dreq.addr
  strobe := dreq.strobe
  data := dreq.data
  len := 0x00#8
  burst := .FIXED

def okay (dcresp : CbusResp) : Bool := dcresp.ready && dcresp.last

def dresp (dcresp : CbusResp) : DbusResp where
  addrOk := okay dcresp
  dataOk := okay dcresp
  data := dcresp.data

end DBusToCBus

namespace IBusToCBus

/-- `IREQ_TO_DREQ`. -/
def dreq (ireq : IbusReq) : DbusReq where
  valid := ireq.valid
  addr := ireq.addr
  size := 0b010#3
  strobe := 0#8
  data := 0#64

def icreq (ireq : IbusReq) : CbusReq := DBusToCBus.dcreq (dreq ireq)

/-- `DRESP_TO_IRESP`. -/
def iresp (ireq : IbusReq) (icresp : CbusResp) : IbusResp where
  addrOk := (DBusToCBus.dresp icresp).addrOk
  dataOk := (DBusToCBus.dresp icresp).dataOk
  data :=
    if ireq.addr.getLsbD 2 then (DBusToCBus.dresp icresp).data.extractLsb 63 32
    else (DBusToCBus.dresp icresp).data.extractLsb 31 0

end IBusToCBus

end RiscvCpu
