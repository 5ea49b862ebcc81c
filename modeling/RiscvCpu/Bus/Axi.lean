import Mathlib.Tactic.IntervalCases
import RiscvCpu.Common
import RiscvCpu.Sync.Machine

/-!
# The bridge to AXI

The bridge carries a request of the cache bus on the five channels of AXI. A read needs
the channels `AR` and `R`, a write the channels `AW`, `W` and `B`; each is done on its
own, and `inIssue` has the ones that are not done yet.

Behind the bridge, there is a slave that answers as AXI prescribes: what it still owes
is in `Slave`. Its transactions, from the request to the last handshake, are in
`Bus.Transaction`.
-/

namespace RiscvCpu

open Sync

/-- The signals of the channels `AR` and `AW`. -/
structure AddrChannel where
  id : BitVec 4
  addr : BitVec 64
  len : BitVec 8
  size : BitVec 3
  burst : AxiBurstType
  lock : Bool
  cache : BitVec 4
  prot : BitVec 3
  valid : Bool
  deriving DecidableEq, Repr

/-- The signals of the channel `W`. -/
structure DataChannel where
  data : BitVec 64
  strb : BitVec 8
  last : Bool
  valid : Bool
  deriving DecidableEq, Repr

def AddrChannel.zero : AddrChannel :=
  { id := 0#4, addr := 0#64, len := 0#8, size := 0#3, burst := .FIXED, lock := false,
    cache := 0#4, prot := 0#3, valid := false }

def DataChannel.zero : DataChannel := { data := 0#64, strb := 0#8, last := false, valid := false }

/-- The registers of the bridge. -/
structure CBusToAXI where
  inIssue : BitVec 5
  savedReq : CbusReq
  count : BitVec 8
  deriving DecidableEq, Repr

namespace CBusToAXI

/-! ## Masks of channels -/

def AR : ℕ := 4

def R : ℕ := 3

def AW : ℕ := 2

def W : ℕ := 1

def B : ℕ := 0

/-- The mask with the given bits. -/
def mask (ar r aw w b : Bool) : BitVec 5 :=
  BitVec.ofBool ar ++ BitVec.ofBool r ++ BitVec.ofBool aw ++ BitVec.ofBool w ++ BitVec.ofBool b

section Mask

variable (ar r aw w b ar' r' aw' w' b' : Bool)

theorem getLsbD_mask : (mask ar r aw w b).getLsbD 4 = ar ∧ (mask ar r aw w b).getLsbD 3 = r ∧
    (mask ar r aw w b).getLsbD 2 = aw ∧ (mask ar r aw w b).getLsbD 1 = w ∧
    (mask ar r aw w b).getLsbD 0 = b := by
  revert ar r aw w b
  decide

theorem mask_and : mask ar r aw w b &&& mask ar' r' aw' w' b' =
    mask (ar && ar') (r && r') (aw && aw') (w && w') (b && b') := by
  apply BitVec.eq_of_getLsbD_eq
  intro i hi
  interval_cases i <;> simp only [BitVec.getLsbD_and, getLsbD_mask]

theorem mask_xor : mask ar r aw w b ^^^ mask ar' r' aw' w' b' =
    mask (ar ^^ ar') (r ^^ r') (aw ^^ aw') (w ^^ w') (b ^^ b') := by
  apply BitVec.eq_of_getLsbD_eq
  intro i hi
  interval_cases i <;> simp only [BitVec.getLsbD_xor, getLsbD_mask]

theorem mask_eq_zero : mask ar r aw w b = 0#5 ↔
    ar = false ∧ r = false ∧ aw = false ∧ w = false ∧ b = false := by
  revert ar r aw w b
  decide

end Mask

/-! ## Wires -/

/-- The inputs of the bridge in a cycle: the request, and the signals of the slave. -/
structure In where
  creq : CbusReq
  arready : Bool
  rdata : BitVec 64
  rlast : Bool
  rvalid : Bool
  awready : Bool
  wready : Bool
  bvalid : Bool
  deriving DecidableEq, Repr

variable (s : CBusToAXI) (i : In)

def nextIssue (creq : CbusReq) : BitVec 5 := if creq.isWrite then 0b00111#5 else 0b11000#5

def isLast : Bool := s.count == 0#8

def busy : Bool := s.inIssue != 0#5

/-- What a request is on the channel of its address. -/
def address (creq : CbusReq) : AddrChannel :=
  { AddrChannel.zero with
    valid := true, addr := creq.addr, len := creq.len, size := creq.size, burst := .WRAP }

def ar : AddrChannel := if s.inIssue.getLsbD AR then address s.savedReq else .zero

def rready : Bool := s.inIssue.getLsbD R

def aw : AddrChannel := if s.inIssue.getLsbD AW then address s.savedReq else .zero

def w (creq : CbusReq) : DataChannel :=
  if s.inIssue.getLsbD W then
    { valid := true, data := creq.data, strb := creq.strobe, last := s.isLast }
  else .zero

def bready : Bool := s.inIssue.getLsbD B

def handshake : BitVec 5 :=
  mask (s.inIssue.getLsbD AR && i.arready) (s.inIssue.getLsbD R && i.rvalid)
    (s.inIssue.getLsbD AW && i.awready) (s.inIssue.getLsbD W && i.wready)
    (s.inIssue.getLsbD B && i.bvalid)

def ended : BitVec 5 := s.handshake i &&& mask true i.rlast true (s.w i.creq).last true

def remain : BitVec 5 := s.inIssue ^^^ s.ended i

def ready : Bool := (s.handshake i).getLsbD W || (s.handshake i).getLsbD R

def cresp : CbusResp where
  ready := s.ready i
  last := s.ready i && (!s.inIssue.getLsbD R || i.rlast) && s.isLast
  data := i.rdata

/-! ## The clock edge -/

/-- The registers after the clock edge. -/
def next (reset : Bool) : CBusToAXI :=
  if !reset then
    if s.busy then
      { s with
        count := if (s.cresp i).ready && !(s.cresp i).last then s.count - 1#8 else s.count
        inIssue := s.remain i }
    else
      { inIssue := if i.creq.valid then nextIssue i.creq else s.inIssue
        savedReq := i.creq
        count := i.creq.len }
  else { s with inIssue := 0#5 }

/-! ## Handshakes -/

def arHandshake : Bool := s.ar.valid && i.arready

def rHandshake : Bool := i.rvalid && s.rready

def awHandshake : Bool := s.aw.valid && i.awready

def wHandshake : Bool := (s.w i.creq).valid && i.wready

def bHandshake : Bool := i.bvalid && s.bready

/-- What a slave owes: beats of the channel `R`, and the response on the channel `B`, when it
    has got the address and the last beat of the data. -/
structure Slave where
  due : ℕ
  aw : Bool
  w : Bool
  deriving DecidableEq, Repr

namespace Slave

def idle : Slave := { due := 0, aw := false, w := false }

/-- After the handshakes of a cycle. -/
def next (x : Slave) (s : CBusToAXI) (i : In) : Slave where
  due :=
    if s.arHandshake i then s.ar.len.toNat + 1
    else if s.rHandshake i then x.due - 1
    else x.due
  aw := !s.bHandshake i && (x.aw || s.awHandshake i)
  w := !s.bHandshake i && (x.w || (s.wHandshake i && (s.w i.creq).last))

end Slave

end CBusToAXI

/-- The bridge, and the slave behind it. -/
structure Axi where
  bridge : CBusToAXI
  slave : CBusToAXI.Slave

namespace Axi

open CBusToAXI

/-- The bridge, with a slave that keeps to AXI: it sends beats on `R` only after the
    handshake on `AR`, `len + 1` of them, the last one marked; and the response on `B`
    only after the address and the last beat of the data. -/
def machine : Machine Axi In where
  init := {x | x.bridge.inIssue = 0#5 ∧ x.slave = .idle}
  admits x := {i | (i.rvalid = true → 0 < x.slave.due ∧ (i.rlast = true ↔ x.slave.due = 1)) ∧
    (i.bvalid = true → x.slave.aw = true ∧ x.slave.w = true)}
  next x i := { bridge := x.bridge.next i false, slave := x.slave.next x.bridge i }

/-! ## The wires, by the channels in issue -/

section Wires

variable {s : CBusToAXI} {ar r aw w b : Bool} (i : In)

theorem channels_of_mask (h : s.inIssue = mask ar r aw w b) :
    s.ar = (if ar then address s.savedReq else .zero) ∧ s.rready = r ∧
      s.aw = (if aw then address s.savedReq else .zero) ∧
      (∀ creq, s.w creq = if w then
        { valid := true, data := creq.data, strb := creq.strobe, last := s.isLast } else .zero) ∧
      s.bready = b := by
  obtain ⟨h4, h3, h2, h1, h0⟩ := getLsbD_mask ar r aw w b
  rw [← h] at h4 h3 h2 h1 h0
  refine ⟨?_, h3, ?_, fun creq => ?_, h0⟩
  · rw [CBusToAXI.ar, AR, h4]
  · rw [CBusToAXI.aw, AW, h2]
  · rw [CBusToAXI.w, W, h1]

theorem handshakes_of_mask (h : s.inIssue = mask ar r aw w b) :
    s.arHandshake i = (ar && i.arready) ∧ s.rHandshake i = (r && i.rvalid) ∧
      s.awHandshake i = (aw && i.awready) ∧ s.wHandshake i = (w && i.wready) ∧
      s.bHandshake i = (b && i.bvalid) := by
  obtain ⟨har, hr, haw, hw, hb⟩ := channels_of_mask h
  rw [arHandshake, rHandshake, awHandshake, wHandshake, bHandshake, har, hr, haw, hw, hb]
  refine ⟨?_, Bool.and_comm .., ?_, ?_, Bool.and_comm ..⟩
  · cases ar <;> rfl
  · cases aw <;> rfl
  · cases w <;> rfl

/-- The bits of a channel are cleared with its last handshake. -/
theorem remain_of_mask (h : s.inIssue = mask ar r aw w b) : s.remain i =
    mask (ar && !i.arready) (r && !(i.rvalid && i.rlast)) (aw && !i.awready)
      (w && !(i.wready && s.isLast)) (b && !i.bvalid) := by
  obtain ⟨h4, h3, h2, h1, h0⟩ := getLsbD_mask ar r aw w b
  rw [← h] at h4 h3 h2 h1 h0
  -- The bits that are cleared are bits of `inIssue`, so that `^` is a difference.
  rw [remain, ended, handshake, CBusToAXI.w, AR, R, AW, W, B, h4, h3, h2, h1, h0, h, mask_and,
    mask_xor]
  congr 1
  · cases ar <;> simp
  · cases r <;> simp
  · cases aw <;> simp
  · cases w <;> simp
  · cases b <;> simp

theorem cresp_of_mask (h : s.inIssue = mask ar r aw w b) :
    (s.cresp i).ready = ((w && i.wready) || (r && i.rvalid)) ∧
      (s.cresp i).last =
        (((w && i.wready) || (r && i.rvalid)) && (!r || i.rlast) && s.isLast) := by
  obtain ⟨h4, h3, h2, h1, h0⟩ := getLsbD_mask ar r aw w b
  rw [← h] at h4 h3 h2 h1 h0
  obtain ⟨-, k3, -, k1, -⟩ := getLsbD_mask (ar && i.arready) (r && i.rvalid) (aw && i.awready)
    (w && i.wready) (b && i.bvalid)
  have hready : s.ready i = ((w && i.wready) || (r && i.rvalid)) := by
    rw [ready, handshake, AR, R, AW, W, B, h4, h3, h2, h1, h0, k3, k1]
  rw [cresp, R, h3, hready]
  exact ⟨rfl, rfl⟩

/-- The registers in the next cycle of a transaction. -/
theorem next_of_busy (hb : s.inIssue ≠ 0#5) : s.next i false =
    { s with
      count := if (s.cresp i).ready && !(s.cresp i).last then s.count - 1#8 else s.count
      inIssue := s.remain i } := by
  have hbusy : s.busy = true := bne_iff_ne.2 hb
  rw [CBusToAXI.next, hbusy]
  rfl

theorem next_of_idle (hb : s.inIssue = 0#5) : s.next i false =
    { inIssue := if i.creq.valid then nextIssue i.creq else 0#5
      savedReq := i.creq
      count := i.creq.len } := by
  have hbusy : s.busy = false := bne_eq_false_iff_eq.2 hb
  rw [CBusToAXI.next, hbusy, hb]
  rfl

end Wires

end Axi

end RiscvCpu
